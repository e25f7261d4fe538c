/-
CljFormat.Proofs.Layout.Shown — layouts that differ where it does not show.

A sequence with no comment or line break among its items is set as its items with spaces between
them, whatever its layout is. Items that break no line between the two of a pair are set the same if
they are no pairs, and it does not matter whether a `:>>` would count where there is none. A string
without a line break is set as it is, whether it is a docstring or not. So every plan has a simplest
one that is set to the same characters (`Form.shown`), and two plans with the same simplest one are
set alike (`setAlike_of_shown`).
-/
import CljFormat.Proofs.Layout.Columns

namespace CljFormat

open List (Forall₂)

namespace Layout

variable {c : Char} {layout layout' : Layout} {cur cur' : Cursor} {f g : Form Hint}
  {fs gs : List (Form Hint)}

/-! ## 1. Forms that are set alike -/

/-- Two plans of one form that are set to the same characters, and end at the same column. -/
structure SetAlike (c : Char) (f g : Form Hint) : Prop where
  bare : f.bare = g.bare
  chars : ∀ w, spellOut c (formPieces f w).1 = spellOut c (formPieces g w).1
  stop : ∀ w, (formPieces f w).2 = (formPieces g w).2

theorem setAlike_of_eq (hbare : f.bare = g.bare) (h : ∀ w, formPieces f w = formPieces g w) :
    SetAlike c f g :=
  ⟨hbare, fun w => by rw [h w], fun w => by rw [h w]⟩

theorem SetAlike.refl (f : Form Hint) : SetAlike c f f := setAlike_of_eq rfl fun _ => rfl

theorem SetAlike.symm (h : SetAlike c f g) : SetAlike c g f :=
  ⟨h.bare.symm, fun w => (h.chars w).symm, fun w => (h.stop w).symm⟩

theorem SetAlike.trans {k : Form Hint} (h : SetAlike c f g) (h' : SetAlike c g k) :
    SetAlike c f k :=
  ⟨h.bare.trans h'.bare, fun w => (h.chars w).trans (h'.chars w),
    fun w => (h.stop w).trans (h'.stop w)⟩

theorem SetAlike.isNewline (h : SetAlike c f g) : f.isNewline = g.isNewline := by
  rw [← Form.isNewline_bare, h.bare, Form.isNewline_bare]

theorem SetAlike.isComment (h : SetAlike c f g) : f.isComment = g.isComment := by
  rw [← Form.isComment_bare, h.bare, Form.isComment_bare]

theorem SetAlike.head (h : SetAlike c f g) : f.shape.head = g.shape.head :=
  Form.head_of_bare h.bare

/-- Whether an item belongs to a pair depends on its kind. -/
theorem pairsUp_of_head (h : f.shape.head = g.shape.head) : pairsUp f = pairsUp g := by
  rcases Form.cases_of_head h with ⟨_, _, x, rfl, rfl⟩ | ⟨_, _, s, _, _, rfl, rfl⟩ |
    ⟨_, _, b, _, _, rfl, rfl⟩
  · cases x <;> rfl
  · cases s <;> rfl
  · rfl

/-- Counting looks at the kind of an item only. -/
theorem Cursor.count_of_head (h : f.shape.head = g.shape.head) (layout : Layout) (cur : Cursor) :
    cur.count layout f = cur.count layout g := by
  rcases Form.cases_of_head h with ⟨_, _, x, rfl, rfl⟩ | ⟨_, _, s, _, _, rfl, rfl⟩ |
    ⟨_, _, b, _, _, rfl, rfl⟩
  · cases x <;> rfl
  · cases s <;> rfl
  · rfl

theorem Cursor.enter_of_head (h : f.shape.head = g.shape.head) (layout : Layout) (cur : Cursor) :
    cur.enter layout f = cur.enter layout g := by
  simp only [Cursor.enter, Cursor.count_of_head h]

theorem SetAlike.past (h : SetAlike c f g) (layout : Layout) (cur : Cursor) :
    cur.past layout f = cur.past layout g := by
  rw [Cursor.past, Cursor.past, Cursor.enter_of_head h.head, h.stop, Cursor.leave, Cursor.leave,
    h.isComment]

/-- Items that are set alike are, one behind the other. -/
theorem setAlike_items (layout : Layout) (cur : Cursor) (h : Forall₂ (SetAlike c) fs gs) :
    spellOut c (itemPieces layout cur fs).1 = spellOut c (itemPieces layout cur gs).1 ∧
      (itemPieces layout cur fs).2 = (itemPieces layout cur gs).2 := by
  induction h generalizing cur with
  | nil => exact ⟨rfl, rfl⟩
  | @cons f g fs gs hf _ ih =>
    cases hnewline : f.isNewline with
    | true =>
      obtain ⟨hlater, hend⟩ := ih (cur.passNewline layout)
      rw [itemPieces_newline hnewline, itemPieces_newline (hf.isNewline ▸ hnewline)]
      exact ⟨congrArg ('\n' :: ·) hlater, hend⟩
    | false =>
      obtain ⟨hlater, hend⟩ := ih (cur.past layout g)
      rw [itemPieces_cons hnewline, itemPieces_cons (hf.isNewline ▸ hnewline),
        hf.past layout cur, Cursor.enter_of_head hf.head]
      refine ⟨?_, hend⟩
      simp only [spellOut_append, hlater, hf.chars]

/-! ## 2. Sequences on one line -/

/-- Two places at the same column of a line that has begun and goes on. -/
structure SameLine (cur cur' : Cursor) : Prop where
  col : cur'.col = cur.col
  gap : cur'.gap = cur.gap
  begun : cur.gap ≠ .indent
  afterComment : cur.afterComment = false
  afterComment' : cur'.afterComment = false

theorem SameLine.enter (h : SameLine cur cur') (layout layout' : Layout) (f g : Form Hint) :
    SameLine (cur.enter layout f) (cur'.enter layout' g) := by
  have hentered : ∀ {cur : Cursor}, cur.afterComment = false → ∀ layout f,
      (cur.enter layout f).col = cur.col ∧ (cur.enter layout f).gap = cur.gap ∧
        (cur.enter layout f).afterComment = false := by
    intro cur hcomment layout f
    obtain ⟨counted, paired, hcount⟩ := cur.count_eq layout f
    obtain ⟨base, hreach⟩ := (cur.count layout f).reachSecond_eq layout
    rw [Cursor.enter, if_neg (by simp [hcomment]), hreach, hcount]
    exact ⟨rfl, rfl, hcomment⟩
  obtain ⟨hcol, hgap, hcomment⟩ := hentered h.afterComment layout f
  obtain ⟨hcol', hgap', hcomment'⟩ := hentered h.afterComment' layout' g
  exact ⟨by rw [hcol', hcol, h.col], by rw [hgap', hgap, h.gap], by rw [hgap]; exact h.begun,
    hcomment, hcomment'⟩

theorem SameLine.itemCol (h : SameLine cur cur') : cur'.itemCol = cur.itemCol := by
  rw [Cursor.itemCol, Cursor.itemCol, h.gap, h.col]

theorem SameLine.gapPieces (h : SameLine cur cur') : cur'.gapPieces = cur.gapPieces := by
  rw [Cursor.gapPieces, Cursor.gapPieces, h.gap]
  cases hgap : cur.gap with
  | indent => exact absurd hgap h.begun
  | _ => rfl

/-- On one line, items that are set alike are set so whatever the layout. -/
theorem SameLine.items (h : SameLine cur cur') (layout layout' : Layout)
    (hfs : Forall₂ (SetAlike c) fs gs) (hflat : ∀ f ∈ fs, f.isSemantic = true) :
    spellOut c (itemPieces layout cur fs).1 = spellOut c (itemPieces layout' cur' gs).1 ∧
      SameLine (itemPieces layout cur fs).2 (itemPieces layout' cur' gs).2 := by
  induction hfs generalizing cur cur' with
  | nil => exact ⟨rfl, h⟩
  | @cons f g fs gs hf _ ih =>
    obtain ⟨hnewline, hcomment⟩ := Form.isSemantic_iff.mp (hflat f List.mem_cons_self)
    have henter := h.enter layout layout' f g
    have hpast : SameLine (cur.past layout f) (cur'.past layout' g) := by
      refine ⟨?_, rfl, by simp, hcomment, hf.isComment.symm.trans hcomment⟩
      simp only [Cursor.past, Cursor.leave, henter.itemCol, hf.stop]
    obtain ⟨hlater, hend⟩ := ih hpast fun k hk => hflat k (List.mem_cons_of_mem _ hk)
    rw [itemPieces_cons hnewline, itemPieces_cons (hf.isNewline ▸ hnewline)]
    refine ⟨?_, hend⟩
    simp only [spellOut_append, hlater, henter.gapPieces, henter.itemCol, hf.chars,
      Cursor.commentPieces, h.afterComment, h.afterComment']

theorem bare_of_setAlike (h : Forall₂ (SetAlike c) fs gs) :
    fs.map Form.bare = gs.map Form.bare := by
  induction h with
  | nil => rfl
  | cons hf _ ih => rw [List.map_cons, List.map_cons, hf.bare, ih]

/-- A sequence is set alike if its items are, and it has the same layout or is flat. -/
theorem setAlike_seq {hint hint' : Hint} (b : Bracket) (h : Forall₂ (SetAlike c) fs gs)
    (hlayout : hint.layout = hint'.layout ∨ ∀ f ∈ fs, f.isSemantic = true) :
    SetAlike c (.seq hint b fs) (.seq hint' b gs) := by
  have hset : ∀ w, spellOut c (formPieces (.seq hint b fs) w).1
        = spellOut c (formPieces (.seq hint' b gs) w).1 ∧
      (formPieces (.seq hint b fs) w).2 = (formPieces (.seq hint' b gs) w).2 := by
    intro w
    rw [formPieces_seq, formPieces_seq]
    rcases hlayout with hlayout | hflat
    · obtain ⟨hitems, hend⟩ := setAlike_items hint.layout (.start (w + b.openText.length)) h
      rw [← hlayout]
      simp only [spellOut_cons, spellOut_append, hitems, hend, and_self, List.cons_append]
    · have hstart : SameLine (.start (w + b.openText.length)) (.start (w + b.openText.length)) :=
        ⟨rfl, rfl, by simp [Cursor.start], rfl, rfl⟩
      obtain ⟨hitems, hend⟩ := hstart.items hint.layout hint'.layout h hflat
      have hgap := hend.gap.trans_ne hend.begun
      simp only [Cursor.close, Cursor.commentPieces, hend.afterComment, hend.afterComment',
        if_neg hend.begun, if_neg hgap, hend.col, spellOut_cons, spellOut_append, hitems,
        List.cons_append, Bool.false_eq_true, if_false, and_true]
  exact ⟨by simp [bare_of_setAlike h], fun w => (hset w).1, fun w => (hset w).2⟩

theorem setAlike_prefixed (hint hint' : Hint) (s : Sigil) (h : SetAlike c f g) :
    SetAlike c (.prefixed hint s f) (.prefixed hint' s g) := by
  refine ⟨by simp [h.bare], fun w => ?_, fun w => h.stop _⟩
  rw [formPieces_prefixed, formPieces_prefixed, spellOut_cons, spellOut_cons, h.chars]

/-- A string without a line break is set as it is, docstring or not. -/
theorem setAlike_atom {x : Atom} (h : '\n' ∉ x.text.toList) (hint hint' : Hint) :
    SetAlike c (.atom hint x) (.atom hint' x) := by
  refine ⟨rfl, fun w => ?_, fun w => ?_⟩
  · simp only [formPieces_atom h, spellOut_cons, linePiece_chars, spellOut_nil]
  · rw [formPieces_atom h, formPieces_atom h]

/-! ## 3. Pairs without arrows -/

/-- Without a `:>>`, it does not matter whether one would count. -/
theorem Cursor.count_withArrows (h : f.shape.keyword? ≠ some ":>>") (cur : Cursor) :
    cur.count layout.withArrows f = cur.count layout f := by
  cases layout with
  | cond leading arrows =>
    cases hf : pairsUp f with
    | false => rw [cur.count_of_not_pairsUp hf, cur.count_of_not_pairsUp hf]
    | true =>
      rw [cur.count_of_pairsUp hf, cur.count_of_pairsUp hf]
      simp [withArrows, countPair, h]
  | _ => rfl

theorem Cursor.breakLine_withArrows (layout : Layout) (cur : Cursor) :
    cur.breakLine layout.withArrows = cur.breakLine layout := by
  cases layout <;> rfl

theorem Cursor.enter_withArrows (h : f.shape.keyword? ≠ some ":>>") (cur : Cursor) :
    cur.enter layout.withArrows f = cur.enter layout f := by
  have hreach : ∀ cur : Cursor, cur.reachSecond layout.withArrows = cur.reachSecond layout := by
    intro cur
    cases layout <;> rfl
  simp only [Cursor.enter, Cursor.breakLine_withArrows, Cursor.count_withArrows h, hreach]

theorem itemPieces_withArrows (h : ∀ f ∈ fs, f.shape.keyword? ≠ some ":>>") (cur : Cursor) :
    itemPieces layout.withArrows cur fs = itemPieces layout cur fs := by
  induction fs generalizing cur with
  | nil => rfl
  | cons f fs ih =>
    have hlater := ih fun g hg => h g (List.mem_cons_of_mem _ hg)
    cases hf : f.isNewline with
    | true =>
      rw [itemPieces_newline hf, itemPieces_newline hf, Cursor.passNewline,
        Cursor.breakLine_withArrows, hlater]
      rfl
    | false =>
      rw [itemPieces_cons hf, itemPieces_cons hf, Cursor.past,
        Cursor.enter_withArrows (h f List.mem_cons_self), hlater]
      rfl

/-- A sequence without a `:>>` is set alike whether one would count or not. -/
theorem setAlike_withArrows (b : Bracket) (h : ∀ f ∈ fs, f.shape.keyword? ≠ some ":>>") :
    SetAlike c (.seq { layout := layout.withArrows } b fs) (.seq { layout } b fs) := by
  have hclose : ∀ cur : Cursor, cur.close layout.withArrows = cur.close layout := by
    intro cur
    rw [Cursor.close, Cursor.close, Cursor.breakLine_withArrows]
  refine setAlike_of_eq (by simp) fun w => ?_
  rw [formPieces_seq, formPieces_seq]
  simp only [itemPieces_withArrows h, hclose]

/-! ## 4. Pairs on lines of their own -/

/-- Whether no comment or line break among some items, with `n` items that pair up before them,
stands between the two of a pair. -/
def breaksBetweenPairs : (n : Nat) → List (Form Hint) → Bool
  | _, [] => true
  | n, f :: rest =>
    (f.isSemantic || n % 2 == 0) && breaksBetweenPairs (if pairsUp f then n + 1 else n) rest

theorem pairsUp_of_not_isSemantic (h : f.isSemantic = false) : pairsUp f = false := by
  cases f with
  | atom hint x => cases x <;> first | rfl | cases h
  | prefixed hint s body => cases h
  | seq hint b items => cases h

/-- Where the first of a pair comes next, pairs make no difference. -/
theorem Cursor.breakLine_bindings (h : cur.counted % 2 = 0) :
    cur.breakLine .bindings = cur.breakLine .normal := by
  simp [Cursor.breakLine, Cursor.stepsIn, Cursor.atSecond, h]

theorem Cursor.enter_bindings (h : cur.afterComment = true → cur.counted % 2 = 0)
    (f : Form Hint) : cur.enter .bindings f = cur.enter .normal f := by
  have hcount : ∀ cur : Cursor, cur.count .bindings f = cur.count .normal f := by
    intro cur
    unfold Cursor.count
    rfl
  have hreach : ∀ cur : Cursor, cur.reachSecond .bindings = cur.reachSecond .normal := by
    intro cur
    unfold Cursor.reachSecond
    rfl
  cases hcomment : cur.afterComment with
  | true =>
    rw [Cursor.enter, Cursor.enter, if_pos hcomment, if_pos hcomment,
      Cursor.breakLine_bindings (h hcomment), hcount]
  | false =>
    rw [Cursor.enter, Cursor.enter, if_neg (by simp [hcomment]), if_neg (by simp [hcomment]),
      hcount, hreach]

theorem Cursor.counted_past (f : Form Hint) (cur : Cursor) :
    (cur.past .normal f).counted = if pairsUp f then cur.counted + 1 else cur.counted := by
  have hcount : ∀ cur : Cursor,
      (cur.count .normal f).counted = if pairsUp f then cur.counted + 1 else cur.counted := by
    intro cur
    cases hf : pairsUp f with
    | false => rw [cur.count_of_not_pairsUp hf, if_neg Bool.false_ne_true]
    | true => rw [cur.count_of_pairsUp hf, if_pos rfl]
  show (cur.enter .normal f).counted = _
  cases hcomment : cur.afterComment with
  | true =>
    rw [Cursor.enter, if_pos hcomment, hcount]
    rfl
  | false =>
    obtain ⟨base, hreach⟩ := (cur.count .normal f).reachSecond_eq .normal
    rw [Cursor.enter, if_neg (by simp [hcomment]), hreach]
    exact hcount cur

/-- Items that break no line between the two of a pair are set as if they were no pairs, and so is
what closes them. -/
theorem itemPieces_bindings (hfs : breaksBetweenPairs cur.counted fs = true)
    (hcur : cur.afterComment = true → cur.counted % 2 = 0) :
    itemPieces .bindings cur fs = itemPieces .normal cur fs ∧
      (itemPieces .normal cur fs).2.close .bindings
        = (itemPieces .normal cur fs).2.close .normal := by
  induction fs generalizing cur with
  | nil =>
    refine ⟨rfl, ?_⟩
    rw [itemPieces_nil, Cursor.close, Cursor.close]
    cases hcomment : cur.afterComment with
    | true => rw [if_pos rfl, if_pos rfl, Cursor.breakLine_bindings (hcur hcomment)]
    | false => rfl
  | cons f fs ih =>
    obtain ⟨heven, hrest⟩ : (f.isSemantic = false → cur.counted % 2 = 0) ∧
        breaksBetweenPairs (if pairsUp f then cur.counted + 1 else cur.counted) fs = true := by
      simpa [breaksBetweenPairs, imp_iff_not_or] using hfs
    cases hf : f.isNewline with
    | true =>
      obtain ⟨hint, rfl⟩ := Form.eq_newline hf
      have hsame : cur.passNewline .bindings = cur.passNewline .normal := by
        rw [Cursor.passNewline, Cursor.passNewline, Cursor.breakLine_bindings (heven rfl)]
      obtain ⟨hlater, hclose⟩ := @ih (cur.passNewline .normal) hrest
        fun hcomment => absurd hcomment (by simp [Cursor.passNewline, Cursor.breakLine])
      rw [itemPieces_newline hf, itemPieces_newline hf, hsame, hlater]
      exact ⟨rfl, hclose⟩
    | false =>
      have hsame : cur.past .bindings f = cur.past .normal f := by
        rw [Cursor.past, Cursor.past, Cursor.enter_bindings hcur]
      have hcounted := cur.counted_past f
      obtain ⟨hlater, hclose⟩ := @ih (cur.past .normal f) (hcounted ▸ hrest) (by
        intro hcomment
        have hnot : f.isSemantic = false := by
          rw [Cursor.past_afterComment] at hcomment
          exact Bool.eq_false_iff.mpr fun hsem => by
            simp [(Form.isSemantic_iff.mp hsem).2] at hcomment
        rw [hcounted, pairsUp_of_not_isSemantic hnot]
        exact heven hnot)
      rw [itemPieces_cons hf, itemPieces_cons hf, hsame, hlater, Cursor.enter_bindings hcur]
      exact ⟨rfl, hclose⟩

/-- Pairs that break lines only between them are set alike if they are no pairs. -/
theorem setAlike_bindings (b : Bracket) (h : breaksBetweenPairs 0 fs = true) :
    SetAlike c (.seq { layout := .bindings } b fs) (.seq { layout := .normal } b fs) := by
  refine setAlike_of_eq (by simp) fun w => ?_
  obtain ⟨hitems, hclose⟩ := @itemPieces_bindings (.start (w + b.openText.length)) fs h
    fun hcomment => absurd hcomment Bool.false_ne_true
  rw [formPieces_seq, formPieces_seq]
  simp only [hitems, hclose]

/-! ## 5. What a plan shows -/

/-- The simplest layout that sets these items as `layout` does. -/
def simplest (layout : Layout) (fs : List (Form Hint)) : Layout :=
  if fs.all Form.isSemantic then .normal
  else
    match layout with
    | .bindings => if breaksBetweenPairs 0 fs then .normal else .bindings
    | .cond leading true => .cond leading (fs.any fun f => f.shape.keyword? == some ":>>")
    | layout => layout

mutual

/-- A plan without what it does not show: layouts are the simplest ones, and only a string on
several lines is a docstring. -/
def shown : Form Hint → Form Hint
  | .atom hint x =>
    .atom { docstring := hint.docstring && x.text.toList.contains '\n' } x
  | .prefixed _ s body => .prefixed {} s (shown body)
  | .seq hint b items => .seq { layout := hint.layout.simplest items } b (shownAll items)

/-- The plans of neighbouring forms without what they do not show. -/
def shownAll : List (Form Hint) → List (Form Hint)
  | [] => []
  | f :: fs => shown f :: shownAll fs

end

theorem breaksBetweenPairs_of_bare (n : Nat) (h : fs.map Form.bare = gs.map Form.bare) :
    breaksBetweenPairs n fs = breaksBetweenPairs n gs := by
  induction fs generalizing n gs with
  | nil => rw [List.map_eq_nil_iff.mp h.symm]
  | cons f fs ih =>
    obtain ⟨g, gs, rfl, hg, hgs⟩ := List.map_eq_cons_iff.mp h.symm
    have hsemantic : f.isSemantic = g.isSemantic := by
      rw [← Form.isSemantic_bare, ← hg, Form.isSemantic_bare]
    have hpairs : pairsUp f = pairsUp g := pairsUp_of_head (Form.head_of_bare hg.symm)
    rw [breaksBetweenPairs, breaksBetweenPairs, hsemantic, hpairs, ih _ hgs.symm]

/-- Whatever their plans, the same items have the same simplest layout. -/
theorem simplest_of_bare (layout : Layout) (h : fs.map Form.bare = gs.map Form.bare) :
    layout.simplest fs = layout.simplest gs := by
  have hsemantic : fs.all Form.isSemantic = gs.all Form.isSemantic := by
    have hall : ∀ fs : List (Form Hint),
        (fs.map Form.bare).all Form.isSemantic = fs.all Form.isSemantic := by
      simp [Function.comp_def]
    rw [← hall, h, hall]
  have harrows : (fs.any fun f => f.shape.keyword? == some ":>>")
      = gs.any fun f => f.shape.keyword? == some ":>>" := by
    have hany : ∀ fs : List (Form Hint),
        ((fs.map Form.bare).any fun f => f.shape.keyword? == some ":>>")
          = fs.any fun f => f.shape.keyword? == some ":>>" := by
      simp [Function.comp_def]
    rw [← hany, h, hany]
  simp only [simplest, hsemantic, harrows, breaksBetweenPairs_of_bare 0 h]

theorem shown_seq (layout : Layout) (b : Bracket) (hbare : fs.map Form.bare = gs.map Form.bare)
    (hshown : shownAll fs = shownAll gs) :
    shown (.seq { layout } b fs) = shown (.seq { layout } b gs) := by
  rw [shown, shown, hshown, simplest_of_bare layout hbare]

theorem setAlike_simplest (hint : Hint) (b : Bracket) (fs : List (Form Hint)) :
    SetAlike c (.seq hint b fs) (.seq { layout := hint.layout.simplest fs } b fs) := by
  have hsame : Forall₂ (SetAlike c) fs fs := List.forall₂_same.mpr fun f _ => .refl f
  have hkeep : ∀ layout, hint.layout = layout →
      SetAlike c (.seq hint b fs) (.seq { layout } b fs) :=
    fun layout h => setAlike_seq b hsame (.inl h)
  unfold simplest
  split
  next hflat => exact setAlike_seq b hsame (.inr (List.all_eq_true.mp hflat))
  next =>
    split
    next hbindings =>
      split
      next hbetween => exact (hkeep _ hbindings).trans (setAlike_bindings b hbetween)
      next => exact hkeep _ hbindings
    next leading hcond =>
      cases harrow : fs.any fun f => f.shape.keyword? == some ":>>" with
      | true => exact hkeep _ hcond
      | false =>
        refine (hkeep _ hcond).trans (@setAlike_withArrows _ (.cond leading false) _ b ?_)
        intro f hf
        simpa using List.any_eq_false.mp harrow f hf
    next => exact hkeep _ rfl

mutual

/-- A plan is set as it is without what it does not show. -/
theorem setAlike_shown (c : Char) : ∀ f : Form Hint, SetAlike c f (shown f)
  | .atom hint x => by
    by_cases hbreak : '\n' ∈ x.text.toList
    · simp only [shown, List.contains_iff_mem.mpr hbreak, Bool.and_true]
      exact setAlike_of_eq rfl fun _ => rfl
    · exact setAlike_atom hbreak _ _
  | .prefixed hint s body => setAlike_prefixed hint {} s (setAlike_shown c body)
  | .seq hint b items =>
    (setAlike_simplest hint b items).trans (setAlike_seq b (setAlike_shownAll c items) (.inl rfl))

theorem setAlike_shownAll (c : Char) :
    ∀ fs : List (Form Hint), Forall₂ (SetAlike c) fs (shownAll fs)
  | [] => .nil
  | f :: fs => .cons (setAlike_shown c f) (setAlike_shownAll c fs)

end

/-- Plans that show the same are set alike. -/
theorem setAlike_of_shown (h : shown f = shown g) : SetAlike c f g :=
  (setAlike_shown c f).trans (h ▸ (setAlike_shown c g).symm)

end Layout

end CljFormat
