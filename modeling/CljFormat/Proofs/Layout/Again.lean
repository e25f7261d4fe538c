/-
CljFormat.Proofs.Layout.Again — what is settled is set as it is.

The forms that a laid out source comes back as have a line break where the layout put one in, and
docstrings that are aligned already. Setting them walks along cursors that differ from the first
ones in the number of items behind them, and nothing that the layout asks of that number tells them
apart: it only asks for the first and the second item, and a line break is never put in before the
second (`SameIndex`). So the pieces are the same (`sourcePieces_again`).
-/
import CljFormat.Proofs.Layout.Settle

namespace CljFormat.Layout

/-! ## 1. Cursors at another index -/

/-- The same place, with another number of items behind it. -/
def Cursor.at (cur : Cursor) (j : Nat) : Cursor := { cur with index := j }

/-- No layout tells two numbers of items apart. -/
def SameIndex (i j : Nat) : Prop := i = j ∨ 2 ≤ i ∧ 2 ≤ j

theorem SameIndex.succ {i j : Nat} (h : SameIndex i j) : SameIndex (i + 1) (j + 1) := by
  unfold SameIndex at *
  omega

theorem SameIndex.beq_one {i j : Nat} (h : SameIndex i j) : (j == 1) = (i == 1) := by
  unfold SameIndex at h
  rw [Bool.eq_iff_iff, beq_iff_eq, beq_iff_eq]
  omega

variable {layout : Layout} {cur : Cursor} {j : Nat} {f g : Form Hint} {fs gs : List (Form Hint)}

theorem Cursor.breakLine_at (h : SameIndex cur.index j) :
    (cur.at j).breakLine layout = (cur.breakLine layout).at j := by
  have hsteps : (cur.at j).stepsIn layout = cur.stepsIn layout := by
    cases layout <;> first | rfl | exact h.beq_one
  have hsecond : (cur.at j).atSecond layout = cur.atSecond layout := by cases layout <;> rfl
  unfold Cursor.breakLine
  rw [hsteps, hsecond]
  rfl

theorem Cursor.passNewline_at (h : SameIndex cur.index j) :
    (cur.at j).passNewline layout = (cur.passNewline layout).at (j + 1) := by
  unfold Cursor.passNewline
  rw [Cursor.breakLine_at h]
  rfl

theorem Cursor.count_at (cur : Cursor) (j : Nat) :
    (cur.at j).count layout f = (cur.count layout f).at j := by
  unfold Cursor.count
  dsimp only
  split <;> split
  · split <;> rfl
  · rfl
  · split <;> rfl
  · rfl

theorem Cursor.reachSecond_at (h : SameIndex cur.index j) :
    (cur.at j).reachSecond layout = (cur.reachSecond layout).at j := by
  have hone : j = 1 ↔ cur.index = 1 := by
    unfold SameIndex at h
    omega
  have hindex : (cur.at j).index = j := rfl
  unfold Cursor.reachSecond
  rw [hindex]
  simp only [hone]
  split
  · split <;> rfl
  · rfl

theorem Cursor.leave_at (h : SameIndex (cur.index + 1) (j + 1)) (w : Nat) :
    (cur.at j).leave f w = (cur.leave f w).at (j + 1) := by
  have hzero : j = 0 ↔ cur.index = 0 := by
    unfold SameIndex at h
    omega
  have hindex : (cur.at j).index = j := rfl
  unfold Cursor.leave
  rw [hindex]
  simp only [hzero]
  rfl

/-! ## 2. Items that come back -/

/-- Items that come back count alike. -/
theorem Cursor.count_echo (h : Form.Echoes Eq (fun _ => Atom.Alike) f g) (cur : Cursor) :
    cur.count layout g = cur.count layout f := by
  cases h with
  | atom _ hatom => rcases hatom with rfl | ⟨text, text', rfl, rfl⟩ <;> rfl
  | prefixed s _ _ => cases s <;> rfl
  | seq _ _ _ => rfl

/-- Where a cursor of the settled items stands when one of the items stands at `cur`: at the same
place, or behind the line break that the comment before `cur` needs. -/
inductive Behind (layout : Layout) (cur : Cursor) : Bool → Cursor → Prop
  | same (j : Nat) : SameIndex cur.index j → Behind layout cur false (cur.at j)
  | broken (j : Nat) : cur.afterComment = true → 1 ≤ cur.index → 2 ≤ j →
      Behind layout cur true ((cur.breakLine layout).at j)

/-- An item is entered at the same place, line break or not. -/
theorem Behind.enter {closed : Bool} {cur' : Cursor}
    (h : Behind layout cur (needsBreak closed cur.afterComment (f :: fs)) cur')
    (hf : f.isNewline = false) (hecho : Form.Echoes Eq (fun _ => Atom.Alike) f g) :
    ∃ k, cur'.enter layout g = (cur.enter layout f).at k ∧
      SameIndex ((cur.enter layout f).index + 1) (k + 1) := by
  have hneeds : needsBreak closed cur.afterComment (f :: fs) = cur.afterComment := by
    simp [needsBreak, hf]
  rw [hneeds] at h
  cases hcomment : cur.afterComment with
  | false =>
    rw [hcomment] at h
    cases h with
    | same j hj =>
      have hcount : (cur.count layout f).index = cur.index := by
        obtain ⟨_, _, hcount⟩ := cur.count_eq layout f
        rw [hcount]
      have hreach : (cur.enter layout f).index = cur.index := by
        obtain ⟨_, hreach⟩ := (cur.count layout f).reachSecond_eq layout
        rw [Cursor.enter, if_neg (by simp [hcomment]), hreach]
        exact hcount
      refine ⟨j, ?_, by rw [hreach]; exact hj.succ⟩
      have hafter : (cur.at j).afterComment = false := hcomment
      rw [Cursor.enter, if_neg (by simp [hafter]), Cursor.enter, if_neg (by simp [hcomment]),
        Cursor.count_echo hecho, Cursor.count_at, Cursor.reachSecond_at (hcount.symm ▸ hj)]
  | true =>
    rw [hcomment] at h
    cases h with
    | broken j _ hindex hj =>
      have hcount : ((cur.breakLine layout).count layout f).index = cur.index := by
        obtain ⟨_, _, hcount⟩ := (cur.breakLine layout).count_eq layout f
        rw [hcount]
        rfl
      have henter : cur.enter layout f = (cur.breakLine layout).count layout f := by
        rw [Cursor.enter, if_pos hcomment]
      refine ⟨j, ?_, ?_⟩
      · have hafter : ((cur.breakLine layout).at j).afterComment = false := rfl
        have hreach : ∀ c : Cursor, (c.at j).reachSecond layout = c.at j := by
          intro c
          have hone : ¬ (c.at j).index = 1 := by
            show ¬ j = 1
            omega
          exact if_neg hone
        rw [Cursor.enter, if_neg (by simp [hafter]), Cursor.count_echo hecho, Cursor.count_at,
          hreach, henter]
      · rw [henter, hcount]
        exact .inr ⟨by omega, by omega⟩

/-! ## 3. The same pieces -/

/-- A form that comes back as it was settled is set the same. -/
def SetAgain (f : Form Hint) : Prop :=
  ∀ g w, Form.Echoes Eq (fun _ => Atom.Alike) f g → g.bare = (settle ' ' f w).bare →
    formPieces g w = formPieces f w

/-- An atom that is settled with spaces is settled. -/
theorem atomPieces_again (hint : Hint) (x : Atom) (w : Nat) :
    atomPieces hint (settleAtom ' ' hint x w) w = atomPieces hint x w := by
  obtain ⟨layout, docstring⟩ := hint
  cases docstring with
  | false => rfl
  | true =>
    cases x with
    | string text => simp [settleAtom, atomPieces, align_settled]
    | _ => rfl

theorem setAgain_atom (hint : Hint) (x : Atom) : SetAgain (.atom hint x) := by
  intro g w hecho hbare
  cases hecho with
  | @atom _ hint' _ y hhint _ =>
    obtain rfl : y = settleAtom ' ' hint x w := by simpa [settle] using hbare
    subst hhint
    exact atomPieces_again hint x w

/-- What an item that comes back is set behind, how it is set, and the place past it. -/
theorem Behind.past {closed : Bool} {cur' : Cursor}
    (h : Behind layout cur (needsBreak closed cur.afterComment (f :: fs)) cur')
    (hf : f.isNewline = false) (hecho : Form.Echoes Eq (fun _ => Atom.Alike) f g)
    (hset : formPieces g (cur.enter layout f).itemCol = formPieces f (cur.enter layout f).itemCol) :
    (if needsBreak closed cur.afterComment (f :: fs) then [Piece.newline] else []) ++
        (cur'.commentPieces ++ (cur'.enter layout g).gapPieces ++
          (formPieces g (cur'.enter layout g).itemCol).1)
      = cur.commentPieces ++ (cur.enter layout f).gapPieces ++
          (formPieces f (cur.enter layout f).itemCol).1 ∧
    ∃ k, cur'.past layout g = (cur.past layout f).at k ∧ SameIndex (cur.past layout f).index k := by
  obtain ⟨k, henter, hk⟩ := h.enter hf hecho
  have hneeds : needsBreak closed cur.afterComment (f :: fs) = cur.afterComment := by
    simp [needsBreak, hf]
  have hcomment : (if cur.afterComment then [Piece.newline] else []) ++ cur'.commentPieces
      = cur.commentPieces := by
    rw [hneeds] at h
    cases hafter : cur.afterComment with
    | false =>
      rw [hafter] at h
      cases h with
      | same j _ => rfl
    | true =>
      rw [hafter] at h
      cases h with
      | broken j _ _ _ => simp [Cursor.commentPieces, hafter, Cursor.at, Cursor.breakLine]
  have hcol : (cur'.enter layout g).itemCol = (cur.enter layout f).itemCol := by
    rw [henter]
    rfl
  have hgap : (cur'.enter layout g).gapPieces = (cur.enter layout f).gapPieces := by
    rw [henter]
    rfl
  refine ⟨?_, k + 1, ?_, hk⟩
  · rw [hneeds, hcol, hset, hgap, ← hcomment]
    simp
  · have hkind : g.isComment = f.isComment :=
      (Form.Echoes.kind (fun _ _ _ h => h) hecho).2.1
    have hleave : ∀ w, ((cur.enter layout f).at k).leave g w
        = ((cur.enter layout f).at k).leave f w := by
      intro w
      rw [Cursor.leave, Cursor.leave, hkind]
    rw [Cursor.past, hcol, hset, henter, hleave, Cursor.leave_at hk]
    rfl

theorem append_pieces {before item item' later later' closing closing' : List Piece}
    (hitem : before ++ item' = item) (hlater : later' ++ closing' = later ++ closing) :
    before ++ (item' ++ later' ++ closing') = item ++ later ++ closing := by
  rw [List.append_assoc, hlater, ← List.append_assoc, hitem, List.append_assoc]

/-- From `cur'` on, the items `gs` give the pieces that `fs` give from `cur` on, once the line break
that the comment before them needs is put in, and what closes them is set at the same place. -/
def SetsAlike (layout : Layout) (closed : Bool) (cur cur' : Cursor) (fs gs : List (Form Hint)) :
    Prop :=
  (if needsBreak closed cur.afterComment fs then [Piece.newline] else []) ++
      ((itemPieces layout cur' gs).1 ++ closingPieces closed (itemPieces layout cur' gs).2)
    = (itemPieces layout cur fs).1 ++ closingPieces closed (itemPieces layout cur fs).2 ∧
  (closed = true → ∃ j, (itemPieces layout cur' gs).2.close layout
    = ((itemPieces layout cur fs).2.close layout).at j)

variable {closed : Bool} {cur' : Cursor}

theorem setsAlike_nil
    (h : Behind layout cur (needsBreak closed cur.afterComment ([] : List (Form Hint))) cur') :
    SetsAlike layout closed cur cur' [] [] := by
  unfold SetsAlike
  simp only [itemPieces_nil, List.nil_append]
  generalize hneeds : needsBreak closed cur.afterComment ([] : List (Form Hint)) = broken at h ⊢
  cases h with
  | same j _ =>
    refine ⟨rfl, ?_⟩
    rintro rfl
    have hafter : cur.afterComment = false := by simpa [needsBreak] using hneeds
    have hafter' : (cur.at j).afterComment = false := hafter
    refine ⟨j, ?_⟩
    rw [Cursor.close, if_neg (by simp [hafter']), Cursor.close, if_neg (by simp [hafter])]
  | broken j hafter _ _ =>
    obtain rfl : closed = true := by
      simp only [needsBreak, Bool.and_eq_true] at hneeds
      exact hneeds.2
    have hafter' : ((cur.breakLine layout).at j).afterComment = false := rfl
    refine ⟨?_, fun _ => ⟨j, ?_⟩⟩
    · simp [closingPieces, Cursor.commentPieces, hafter, hafter']
    · rw [Cursor.close, if_neg (by simp [hafter']), Cursor.close, if_pos hafter]

/-- A line break that the source has. -/
theorem setsAlike_newline (hf : f.isNewline = true) (hg : g.isNewline = true)
    (h : SetsAlike layout closed (cur.passNewline layout) (cur'.passNewline layout) fs gs) :
    SetsAlike layout closed cur cur' (f :: fs) (g :: gs) := by
  obtain ⟨hpieces, hclose⟩ := h
  have hnone : needsBreak closed cur.afterComment (f :: fs) = false := by simp [needsBreak, hf]
  unfold SetsAlike
  rw [itemPieces_newline hg, itemPieces_newline hf, hnone]
  exact ⟨congrArg (Piece.newline :: ·) hpieces, hclose⟩

/-- An item that no line break has to follow. -/
theorem setsAlike_keep
    (hplace : Behind layout cur (needsBreak closed cur.afterComment (f :: fs)) cur')
    (hf : f.isNewline = false) (hecho : Form.Echoes Eq (fun _ => Atom.Alike) f g)
    (hset : formPieces g (cur.enter layout f).itemCol = formPieces f (cur.enter layout f).itemCol)
    (hbreak : needsBreak closed f.isComment fs = false)
    (h : SetsAlike layout closed (cur.past layout f) (cur'.past layout g) fs gs) :
    SetsAlike layout closed cur cur' (f :: fs) (g :: gs) := by
  obtain ⟨hpieces, hclose⟩ := h
  obtain ⟨hitem, -⟩ := hplace.past hf hecho hset
  have hg : g.isNewline = false := (Form.Echoes.kind (fun _ _ _ h => h) hecho).1.trans hf
  rw [Cursor.past_afterComment, hbreak, if_neg (by simp), List.nil_append] at hpieces
  unfold SetsAlike
  rw [itemPieces_cons hg, itemPieces_cons hf]
  exact ⟨append_pieces hitem hpieces, hclose⟩

/-- A comment that is followed by a line break which was put in. -/
theorem setsAlike_insert
    (hplace : Behind layout cur (needsBreak closed cur.afterComment (f :: fs)) cur')
    (hf : f.isNewline = false) (hecho : Form.Echoes Eq (fun _ => Atom.Alike) f g)
    (hset : formPieces g (cur.enter layout f).itemCol = formPieces f (cur.enter layout f).itemCol)
    (hbreak : needsBreak closed f.isComment fs = true) (hint : Hint)
    (h : SetsAlike layout closed (cur.past layout f) ((cur'.past layout g).passNewline layout)
      fs gs) :
    SetsAlike layout closed cur cur' (f :: fs) (g :: .atom hint .newline :: gs) := by
  obtain ⟨hpieces, hclose⟩ := h
  obtain ⟨hitem, -⟩ := hplace.past hf hecho hset
  have hg : g.isNewline = false := (Form.Echoes.kind (fun _ _ _ h => h) hecho).1.trans hf
  rw [Cursor.past_afterComment, hbreak, if_pos rfl] at hpieces
  unfold SetsAlike
  rw [itemPieces_cons hg, itemPieces_cons hf, itemPieces_newline rfl]
  exact ⟨append_pieces hitem hpieces, hclose⟩

/-- The place behind an item, and behind the line break that is put in there. -/
theorem Behind.next (h : Behind layout cur (needsBreak closed cur.afterComment (f :: fs)) cur')
    (hf : f.isNewline = false) (hecho : Form.Echoes Eq (fun _ => Atom.Alike) f g)
    (hset : formPieces g (cur.enter layout f).itemCol = formPieces f (cur.enter layout f).itemCol) :
    Behind layout (cur.past layout f) (needsBreak closed (cur.past layout f).afterComment fs)
      (if needsBreak closed f.isComment fs then (cur'.past layout g).passNewline layout
        else cur'.past layout g) := by
  obtain ⟨-, k, hpast, hk⟩ := h.past hf hecho hset
  rw [Cursor.past_afterComment, hpast]
  cases hbreak : needsBreak closed f.isComment fs with
  | false => exact .same k hk
  | true =>
    have hcomment : f.isComment = true := by
      simp only [needsBreak, Bool.and_eq_true] at hbreak
      exact hbreak.1
    have hfirst : 1 ≤ (cur.past layout f).index := Nat.le_add_left 1 _
    have hsecond : 2 ≤ k + 1 := by
      unfold SameIndex at hk
      omega
    rw [if_pos rfl, Cursor.passNewline_at hk]
    exact .broken (k + 1) hcomment hfirst hsecond

/-- A settled sequence is set the same as the sequence. -/
theorem itemPieces_again (hfs : ∀ f ∈ fs, SetAgain f)
    (hplace : Behind layout cur (needsBreak closed cur.afterComment fs) cur')
    (hecho : Form.EchoesAll Eq (fun _ => Atom.Alike) closed fs gs)
    (hbare : gs.map Form.bare = (settleAll ' ' layout closed cur fs).map Form.bare) :
    SetsAlike layout closed cur cur' fs gs := by
  induction fs generalizing gs cur cur' with
  | nil =>
    cases hecho
    exact setsAlike_nil hplace
  | cons f fs ih =>
    have hlater : ∀ g ∈ fs, SetAgain g := fun g hg => hfs g (List.mem_cons_of_mem _ hg)
    cases hn : f.isNewline with
    | true =>
      have hneeds : needsBreak closed cur.afterComment (f :: fs) = false := by
        simp [needsBreak, hn]
      obtain ⟨hint, rfl⟩ := Form.eq_newline hn
      rw [hneeds] at hplace
      rw [settleAll_newline hn] at hbare
      cases hplace with
      | same j hj =>
        cases hecho with
        | insert _ _ hbreak _ =>
          simp [needsBreak, Form.isComment, Form.shape, Shape.isComment] at hbreak
        | @keep _ _ g _ gs hf _ hrest =>
          have hg : g.isNewline = true :=
            (Form.Echoes.kind (fun _ _ _ h => h) hf).1.trans hn
          rw [List.map_cons, List.map_cons, List.cons.injEq] at hbare
          have hnext : Behind layout (cur.passNewline layout)
              (needsBreak closed (cur.passNewline layout).afterComment fs)
              ((cur.at j).passNewline layout) := by
            rw [Cursor.passNewline_at hj]
            exact .same _ hj.succ
          exact setsAlike_newline hn hg (ih hlater hnext hrest hbare.2)
    | false =>
      rw [settleAll_cons hn, List.map_cons] at hbare
      cases hecho with
      | @keep _ _ g _ gs hf hbreak hrest =>
        rw [breakBefore, hbreak, List.map_cons, List.cons.injEq] at hbare
        have hset := hfs f List.mem_cons_self g _ hf hbare.1
        have hnext := hplace.next hn hf hset
        rw [hbreak] at hnext
        exact setsAlike_keep hplace hn hf hset hbreak (ih hlater hnext hrest hbare.2)
      | @insert _ _ g _ gs l hf hbreak hrest =>
        rw [breakBefore, hbreak, List.map_cons, List.cons.injEq] at hbare
        have hset := hfs f List.mem_cons_self g _ hf hbare.1
        have hnext := hplace.next hn hf hset
        rw [hbreak] at hnext
        have hrest' : gs.map Form.bare
            = (settleAll ' ' layout closed (cur.past layout f) fs).map Form.bare := by
          simpa using hbare.2
        exact setsAlike_insert hplace hn hf hset hbreak l (ih hlater hnext hrest hrest')

/-- A form that comes back as it was settled is set the same. -/
theorem setAgain (f : Form Hint) : SetAgain f := by
  induction f using Form.induct with
  | atom hint x => exact setAgain_atom hint x
  | prefixed hint s body ih =>
    intro g w hecho hbare
    cases hecho with
    | @prefixed _ hint' _ _ body' hhint hbody =>
      have hinner : body'.bare = (settle ' ' body (w + s.text.length)).bare := by
        simpa [settle] using hbare
      rw [formPieces_prefixed, formPieces_prefixed, ih body' _ hbody hinner]
  | seq hint b items ih =>
    intro g w hecho hbare
    cases hecho with
    | @seq _ hint' _ _ items' hhint hitems =>
      subst hhint
      have hinner : items'.map Form.bare
          = (settleAll ' ' hint.layout true (.start (w + b.openText.length)) items).map
            Form.bare := by
        simpa [settle] using hbare
      have hplace : Behind hint.layout (.start (w + b.openText.length))
          (needsBreak true (Cursor.start (w + b.openText.length)).afterComment items)
          (.start (w + b.openText.length)) := .same 0 (.inl rfl)
      obtain ⟨hpieces, hclose⟩ := itemPieces_again ih hplace hitems hinner
      obtain ⟨j, hclose⟩ := hclose rfl
      rw [formPieces_seq, formPieces_seq]
      dsimp only
      have hinside : (itemPieces hint.layout (.start (w + b.openText.length)) items').1 ++
            (itemPieces hint.layout (.start (w + b.openText.length)) items').2.commentPieces
          = (itemPieces hint.layout (.start (w + b.openText.length)) items).1 ++
            (itemPieces hint.layout (.start (w + b.openText.length)) items).2.commentPieces :=
        hpieces
      rw [hclose, List.cons_append, hinside]
      rfl

/-- A source that comes back as it was settled is set the same. -/
theorem sourcePieces_again
    (hecho : Form.EchoesAll Eq (fun _ => Atom.Alike) false fs gs)
    (hbare : gs.map Form.bare = (settled ' ' fs).map Form.bare) :
    sourcePieces gs = sourcePieces fs := by
  have hplace : Behind .normal (.start 0) (needsBreak false (Cursor.start 0).afterComment fs)
      (.start 0) := .same 0 (.inl rfl)
  obtain ⟨hpieces, -⟩ := itemPieces_again (fun f _ => setAgain f) hplace hecho hbare
  simpa [sourcePieces, closingPieces, needsBreak, Cursor.start] using hpieces

end CljFormat.Layout
