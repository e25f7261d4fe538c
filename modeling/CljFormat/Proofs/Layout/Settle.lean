/-
CljFormat.Proofs.Layout.Settle — the forms that a laid out source is read as.

Setting a source changes its forms in two ways: a comment gets a line break if none follows it, and
a docstring is aligned with its quote. `Form.settle` makes these changes and no others, walking
along the cursors that `formPieces` walks along. The characters that the layout writes for a form
scan to the tokens of the settled form (`lexes_of_readable`), whatever stands behind it, as long as
that breaks a run of symbol characters and, behind a comment, a line.

Two kinds of atoms are excluded (`Form.Fits`): a tag that is not scanned to its end, and a docstring
that swallows its closing quote.
-/
import CljFormat.Proofs.Form.Echo
import CljFormat.Proofs.Form.Spellings
import CljFormat.Proofs.Layout.Docstring

namespace CljFormat.Layout

variable {c : Char} {inside : Bool}

/-! ## 1. Equations of the layout -/

theorem formPieces_prefixed (hint : Hint) (s : Sigil) (body : Form Hint) (w : Nat) :
    formPieces (.prefixed hint s body) w
      = (.text w s.text :: (formPieces body (w + s.text.length)).1,
        (formPieces body (w + s.text.length)).2) := rfl

theorem formPieces_seq (hint : Hint) (b : Bracket) (items : List (Form Hint)) (w : Nat) :
    formPieces (.seq hint b items) w
      = (let walked := itemPieces hint.layout (.start (w + b.openText.length)) items
        let last := walked.2.close hint.layout
        (.text w b.openText :: walked.1 ++ walked.2.commentPieces ++
          (if last.gap = .indent then [.indent last.base] else []) ++ [.text last.col b.closeText],
        last.col + b.closeText.length)) := rfl

theorem itemPieces_nil (layout : Layout) (cur : Cursor) :
    itemPieces layout cur [] = ([], cur) := rfl

theorem itemPieces_newline {f : Form Hint} (h : f.isNewline = true) (layout : Layout)
    (cur : Cursor) (rest : List (Form Hint)) :
    itemPieces layout cur (f :: rest)
      = (.newline :: (itemPieces layout (cur.passNewline layout) rest).1,
        (itemPieces layout (cur.passNewline layout) rest).2) := by
  rw [itemPieces, if_pos h]

/-- Counting an item changes the counts only. -/
theorem Cursor.count_eq (layout : Layout) (f : Form Hint) (cur : Cursor) :
    ∃ counted paired, cur.count layout f = { cur with counted, paired } := by
  unfold Cursor.count
  dsimp only
  split <;> split
  · split <;> exact ⟨_, _, rfl⟩
  · exact ⟨cur.counted, cur.paired, rfl⟩
  · split <;> exact ⟨_, _, rfl⟩
  · exact ⟨cur.counted, cur.paired, rfl⟩

/-- Reaching the second item changes where lines start only. -/
theorem Cursor.reachSecond_eq (layout : Layout) (cur : Cursor) :
    ∃ base, cur.reachSecond layout = { cur with base } := by
  unfold Cursor.reachSecond
  split
  · split
    · exact ⟨_, rfl⟩
    · exact ⟨_, rfl⟩
    · exact ⟨_, rfl⟩
    · exact ⟨cur.base, rfl⟩
  · exact ⟨cur.base, rfl⟩

/-- Unless a comment needs a line break, an item is set behind the gap that the cursor has. -/
theorem Cursor.enter_gap {cur : Cursor} (h : cur.afterComment = false) (layout : Layout)
    (f : Form Hint) : (cur.enter layout f).gap = cur.gap := by
  obtain ⟨counted, paired, hcount⟩ := cur.count_eq layout f
  obtain ⟨base, hreach⟩ := (cur.count layout f).reachSecond_eq layout
  rw [Cursor.enter, if_neg (by simp [h]), hreach, hcount]

/-- The cursor behind the item `f`. -/
def Cursor.past (layout : Layout) (f : Form Hint) (cur : Cursor) : Cursor :=
  (cur.enter layout f).leave f (formPieces f (cur.enter layout f).itemCol).2

theorem itemPieces_cons {f : Form Hint} (h : f.isNewline = false) (layout : Layout)
    (cur : Cursor) (rest : List (Form Hint)) :
    itemPieces layout cur (f :: rest)
      = (cur.commentPieces ++ (cur.enter layout f).gapPieces ++
          (formPieces f (cur.enter layout f).itemCol).1 ++
          (itemPieces layout (cur.past layout f) rest).1,
        (itemPieces layout (cur.past layout f) rest).2) := by
  rw [itemPieces, if_neg (by simp [h])]
  rfl

@[simp] theorem Cursor.past_gap (layout : Layout) (f : Form Hint) (cur : Cursor) :
    (cur.past layout f).gap = .space := rfl

@[simp] theorem Cursor.past_afterComment (layout : Layout) (f : Form Hint) (cur : Cursor) :
    (cur.past layout f).afterComment = f.isComment := rfl

/-! ## 2. Indentation -/

/-- The character that indents. -/
def Indents (c : Char) : Prop := c = ' ' ∨ c = '\t'

theorem Indents.white (hc : Indents c) : Text.isWhiteSpace c = true := by
  rcases hc with rfl | rfl <;> rfl

theorem Indents.ne_newline (hc : Indents c) : c ≠ '\n' := by
  rcases hc with rfl | rfl <;> decide

/-! ## 3. Settled forms -/

/-- An atom as it is set at column `w`. -/
def settleAtom (c : Char) (hint : Hint) (x : Atom) (w : Nat) : Atom :=
  match hint.docstring, x with
  | true, .string text => .string (Docstring.settled c w text)
  | _, x => x

/-- The line break that is put in front of `rest`, if one is needed there. -/
def breakBefore (closed afterComment : Bool) (rest : List (Form Hint)) : List (Form Hint) :=
  if needsBreak closed afterComment rest then [.atom {} .newline] else []

mutual

/-- A form as it is set at column `w`. -/
def settle (c : Char) : Form Hint → (w : Nat) → Form Hint
  | .atom hint x, w => .atom hint (settleAtom c hint x w)
  | .prefixed hint s body, w => .prefixed hint s (settle c body (w + s.text.length))
  | .seq hint b items, w =>
    .seq hint b (settleAll c hint.layout true (.start (w + b.openText.length)) items)

/-- The items of a sequence as they are set from the cursor on. -/
def settleAll (c : Char) (layout : Layout) (closed : Bool) :
    Cursor → List (Form Hint) → List (Form Hint)
  | _, [] => []
  | cur, f :: rest =>
    if f.isNewline then f :: settleAll c layout closed (cur.passNewline layout) rest
    else
      settle c f (cur.enter layout f).itemCol ::
        (breakBefore closed f.isComment rest ++
          settleAll c layout closed (cur.past layout f) rest)

end

theorem settleAll_newline {f : Form Hint} (h : f.isNewline = true) (layout : Layout)
    (closed : Bool) (cur : Cursor) (rest : List (Form Hint)) :
    settleAll c layout closed cur (f :: rest)
      = f :: settleAll c layout closed (cur.passNewline layout) rest := by
  rw [settleAll, if_pos h]

theorem settleAll_cons {f : Form Hint} (h : f.isNewline = false) (layout : Layout)
    (closed : Bool) (cur : Cursor) (rest : List (Form Hint)) :
    settleAll c layout closed cur (f :: rest)
      = settle c f (cur.enter layout f).itemCol ::
        (breakBefore closed f.isComment rest ++
          settleAll c layout closed (cur.past layout f) rest) := by
  rw [settleAll, if_neg (by simp [h])]

theorem settleAtom_eq_self {hint : Hint} {x : Atom} (h : ∀ text, x ≠ .string text) (w : Nat) :
    settleAtom c hint x w = x := by
  unfold settleAtom
  split
  · next text _ => exact absurd rfl (h text)
  · rfl

/-- The forms of a source as they are set. -/
def settled (c : Char) (roots : List (Form Hint)) : List (Form Hint) :=
  settleAll c .normal false (.start 0) roots

theorem echoesAll_settleAll {layout : Layout} {closed : Bool} {fs : List (Form Hint)}
    (hfs : ∀ f ∈ fs, ∀ w,
      Form.Echoes Eq (fun hint x y => ∃ v, y = settleAtom c hint x v) f (settle c f w))
    (cur : Cursor) :
    Form.EchoesAll Eq (fun hint x y => ∃ v, y = settleAtom c hint x v) closed fs
      (settleAll c layout closed cur fs) := by
  induction fs generalizing cur with
  | nil => exact .nil
  | cons f fs ih =>
    have hlater := ih fun g hg => hfs g (List.mem_cons_of_mem _ hg)
    cases h : f.isNewline with
    | true =>
      obtain ⟨hint, rfl⟩ := Form.eq_newline h
      rw [settleAll_newline h]
      have hkept : Atom.newline = settleAtom c hint .newline 0 :=
        (settleAtom_eq_self (by simp) 0).symm
      exact .keep (.atom rfl ⟨0, hkept⟩) rfl (hlater _)
    | false =>
      have hf := hfs f List.mem_cons_self (cur.enter layout f).itemCol
      rw [settleAll_cons h, breakBefore]
      cases hbreak : needsBreak closed f.isComment fs with
      | true => exact .insert {} hf hbreak (hlater _)
      | false => exact .keep hf hbreak (hlater _)

/-- A settled form is the form as it comes back, its hints unchanged and its atoms settled. -/
theorem echoes_settle (f : Form Hint) (w : Nat) :
    Form.Echoes Eq (fun hint x y => ∃ v, y = settleAtom c hint x v) f (settle c f w) := by
  induction f using Form.induct generalizing w with
  | atom hint x => exact .atom rfl ⟨w, rfl⟩
  | prefixed hint s body ih => exact .prefixed s rfl (ih _)
  | seq hint b items ih => exact .seq b rfl (echoesAll_settleAll ih _)

theorem echoesAll_settled (roots : List (Form Hint)) :
    Form.EchoesAll Eq (fun hint x y => ∃ v, y = settleAtom c hint x v) false roots
      (settled c roots) :=
  echoesAll_settleAll (fun f _ w => echoes_settle f w) _

/-! ## 4. Settled atoms -/

/-- A string that is a docstring is another with the same lines, white space apart, and any other
atom is itself. -/
def Realigned (docstring : Bool) (x y : Atom) : Prop :=
  x = y ∨ docstring = true ∧
    ∃ text text', x = .string text ∧ y = .string text' ∧ Docstring.SameLines text text'

theorem Realigned.alike {docstring : Bool} {x y : Atom} (h : Realigned docstring x y) :
    x.Alike y := by
  rcases h with rfl | ⟨-, text, text', rfl, rfl, -⟩
  · exact .inl rfl
  · exact .inr ⟨text, text', rfl, rfl⟩

theorem realigned_settleAtom (hc : Indents c) (hint : Hint) (x : Atom) (w : Nat) :
    Realigned hint.docstring x (settleAtom c hint x w) := by
  unfold settleAtom
  split
  · next text hmarked =>
    exact .inr ⟨hmarked, text, _, rfl, rfl, sameLines_settled hc.white hc.ne_newline w text⟩
  · exact .inl rfl

/-- An atom that is set without harm: a tag that scans to its end, or a docstring that does not
swallow its closing quote, or anything else. -/
def Fits : Form Hint → Prop
  | .atom hint x =>
    x.Clear ∧ (hint.docstring = true → ∀ text, x = .string text → ¬ Docstring.Swallows text)
  | _ => True

theorem readable_settleAtom (hc : Indents c) {hint : Hint} {x : Atom}
    (h : x.Readable) (hfits : Fits (.atom hint x)) (w : Nat) :
    (settleAtom c hint x w).Readable := by
  unfold settleAtom
  split
  · next text hmarked => exact stands_settled hc.white w h (hfits.2 hmarked text rfl)
  · exact h

theorem clear_settleAtom {hint : Hint} {x : Atom} (h : x.Clear) (w : Nat) :
    (settleAtom c hint x w).Clear := by
  unfold settleAtom
  split
  · trivial
  · exact h

/-- Settling keeps forms readable. -/
theorem readable_settled (hc : Indents c) {roots : List (Form Hint)}
    (h : ∀ f ∈ roots, f.Readable false) (hfits : ∀ g ∈ Form.nodesAll roots, Fits g) :
    ∀ g ∈ settled c roots, g.Readable false := by
  refine (echoesAll_settled roots).readable ?_ h ?_
  · rintro hint x y ⟨w, rfl⟩
    exact (realigned_settleAtom hc hint x w).alike
  · rintro f hf hint x y hx ⟨w, rfl⟩ hreadable
    exact readable_settleAtom hc hreadable (hfits _ (Form.mem_nodesAll hf hx)) w

/-! ## 5. The characters of settled forms -/

theorem Indents.breaks (hc : Indents c) (rest : List Char) : Breaks (c :: rest) := by
  intro d hd
  obtain rfl : c = d := by simpa using hd
  rcases hc with rfl | rfl <;> exact .inl rfl

theorem Indents.breaks_replicate (hc : Indents c) (n : Nat) {rest : List Char}
    (h : Breaks rest) : Breaks (List.replicate n c ++ rest) := by
  cases n with
  | zero => exact h
  | succ n => exact hc.breaks _

theorem breaks_newline (rest : List Char) : Breaks ('\n' :: rest) := by
  intro d hd
  obtain rfl : '\n' = d := by simpa using hd
  exact .inl rfl

theorem breaks_space (rest : List Char) : Breaks (' ' :: rest) :=
  Indents.breaks (.inl rfl) rest

theorem breaks_closeText (b : Bracket) (rest : List Char) :
    Breaks (b.closeText.toList ++ rest) := by
  have hcloser : ∀ d ∈ [')', ']', '\x7d'], Breaks (d :: rest) := by
    intro d hd e he
    obtain rfl : d = e := by simpa using he
    exact .inr hd
  cases b
  case map ns => exact show Breaks ("\x7d".toList ++ rest) from hcloser '\x7d' (by simp)
  case set => exact hcloser '\x7d' (by simp)
  case vector => exact hcloser ']' (by simp)
  all_goals exact hcloser ')' (by simp)

/-- The characters of pieces. -/
def spellOut (c : Char) (pieces : List Piece) : List Char :=
  pieces.flatMap (Piece.chars c)

@[simp] theorem spellOut_nil : spellOut c [] = [] := rfl

@[simp] theorem spellOut_cons (piece : Piece) (pieces : List Piece) :
    spellOut c (piece :: pieces) = piece.chars c ++ spellOut c pieces := rfl

@[simp] theorem spellOut_append (pieces pieces' : List Piece) :
    spellOut c (pieces ++ pieces') = spellOut c pieces ++ spellOut c pieces' := by
  simp [spellOut]

/-- Indentation is no token. -/
theorem Indents.spells (hc : Indents c) (n : Nat) (rest : List Char) :
    Spells (List.replicate n c) [] rest := by
  induction n with
  | zero => exact Spells.nil rest
  | succ n ih =>
    have hblank : Spells [c] [] (List.replicate n c ++ rest) := by
      rcases hc with rfl | rfl <;> exact .blank rfl
    exact hblank.append ih

theorem spells_newline (rest : List Char) : Spells ['\n'] [(.newline, "\n")] rest :=
  .token rfl

/-- The line break that a comment before the cursor needs, in front of a closing delimiter or an
item. -/
theorem spells_commentPieces (cur : Cursor) {fs : List (Form Hint)}
    (hfs : ∀ f ∈ fs.head?, f.isNewline = false) (rest : List Char) :
    Spells (spellOut c cur.commentPieces)
      ((breakBefore true cur.afterComment fs).flatMap Form.spellings) rest := by
  have hneeds : needsBreak true cur.afterComment fs = cur.afterComment := by
    cases fs with
    | nil => simp [needsBreak]
    | cons f fs => simp [needsBreak, hfs f rfl]
  rw [breakBefore, hneeds, Cursor.commentPieces]
  split
  · exact spells_newline rest
  · exact Spells.nil rest

theorem spells_gapPieces (hc : Indents c) (cur : Cursor) (rest : List Char) :
    Spells (spellOut c cur.gapPieces) [] rest := by
  unfold Cursor.gapPieces
  split
  · exact Spells.nil rest
  · exact Indents.spells (.inl rfl) 1 rest
  · simpa [Piece.chars] using hc.spells cur.base rest

/-- The characters of an atom are those of the settled atom. -/
theorem spellOut_atom (hint : Hint) (x : Atom) (w : Nat) :
    spellOut c (formPieces (.atom hint x) w).1 = (settleAtom c hint x w).text.toList := by
  obtain ⟨layout, docstring⟩ := hint
  cases docstring with
  | false => simp [formPieces, atomPieces, settleAtom, Piece.chars]
  | true => cases x <;> simp [formPieces, atomPieces, settleAtom, Piece.chars, Atom.text,
      Docstring.settled]

/-- The characters of a form are the tokens of the settled form, in front of what breaks a run and,
for a comment, a line. -/
def Lexes (c : Char) (f : Form Hint) : Prop :=
  ∀ w rest, f.isNewline = false → Breaks rest → (f.isComment = true → EndsLine rest) →
    Spells (spellOut c (formPieces f w).1) (settle c f w).spellings rest

/-- What is written behind the items of a sequence that is closed, and of one that is not, before
its closing delimiter. -/
def closingPieces (closed : Bool) (cur : Cursor) : List Piece :=
  if closed then cur.commentPieces else []

/-- What stands behind an item breaks it off. -/
theorem breaks_items (layout : Layout) {cur : Cursor} (hgap : cur.gap = .space)
    {rest : List Char} (hrest : Breaks rest) (fs : List (Form Hint)) :
    Breaks (spellOut c (itemPieces layout cur fs).1 ++ rest) := by
  cases fs with
  | nil => exact hrest
  | cons f fs =>
    cases h : f.isNewline with
    | true => rw [itemPieces_newline h]; exact breaks_newline _
    | false =>
      rw [itemPieces_cons h]
      cases hcomment : cur.afterComment with
      | true => simpa [Cursor.commentPieces, hcomment, Piece.chars] using breaks_newline _
      | false =>
        have hplace : (cur.enter layout f).gap = .space := by
          rw [Cursor.enter_gap hcomment, hgap]
        simpa [Cursor.commentPieces, hcomment, Cursor.gapPieces, hplace, Piece.chars]
          using breaks_space _

/-- A comment needs the end of its line behind it, and gets it. -/
theorem endsLine_items (layout : Layout) {cur : Cursor} (hcomment : cur.afterComment = true)
    {rest : List Char} {fs : List (Form Hint)}
    (hrest : (itemPieces layout cur fs).2.afterComment = true → EndsLine rest) :
    EndsLine (spellOut c (itemPieces layout cur fs).1 ++ rest) := by
  cases fs with
  | nil => exact hrest hcomment
  | cons f fs =>
    cases h : f.isNewline with
    | true => rw [itemPieces_newline h]; exact endsLine_newline _
    | false =>
      rw [itemPieces_cons h]
      simpa [Cursor.commentPieces, hcomment, Piece.chars] using endsLine_newline _

/-- The characters of the items of a sequence are the tokens of the settled items, and those of the
line break that the comment before the first of them needs. -/
theorem spells_items (hc : Indents c) (layout : Layout) (closed : Bool) {fs : List (Form Hint)}
    (hfs : ∀ f ∈ fs, Lexes c f) (cur : Cursor) {rest : List Char} (hrest : Breaks rest)
    (hline : closed = false → EndsLine rest) :
    Spells
      (spellOut c ((itemPieces layout cur fs).1 ++
        closingPieces closed (itemPieces layout cur fs).2))
      ((breakBefore closed cur.afterComment fs ++ settleAll c layout closed cur fs).flatMap
        Form.spellings) rest := by
  induction fs generalizing cur with
  | nil =>
    rw [itemPieces_nil, settleAll, List.append_nil, List.nil_append]
    cases closed with
    | true => exact spells_commentPieces cur (by simp) rest
    | false => simpa [closingPieces, breakBefore, needsBreak] using Spells.nil rest
  | cons f fs ih =>
    have hlater : ∀ g ∈ fs, Lexes c g := fun g hg => hfs g (List.mem_cons_of_mem _ hg)
    cases h : f.isNewline with
    | true =>
      obtain ⟨hint, rfl⟩ := Form.eq_newline h
      have hnone : breakBefore closed cur.afterComment (.atom hint .newline :: fs) = [] := by
        simp [breakBefore, needsBreak, h]
      have hbehind := ih hlater (cur.passNewline layout)
      have hpast : breakBefore closed (cur.passNewline layout).afterComment fs = [] := rfl
      rw [hpast, List.nil_append] at hbehind
      rw [itemPieces_newline h, settleAll_newline h, hnone]
      exact (spells_newline _).append hbehind
    | false =>
      have hbefore : breakBefore closed cur.afterComment (f :: fs)
          = breakBefore true cur.afterComment (f :: fs) := rfl
      have hclosing : Breaks (spellOut c (closingPieces closed
            (itemPieces layout (cur.past layout f) fs).2) ++ rest) ∧
          ((itemPieces layout (cur.past layout f) fs).2.afterComment = true →
            EndsLine (spellOut c (closingPieces closed
              (itemPieces layout (cur.past layout f) fs).2) ++ rest)) := by
        generalize (itemPieces layout (cur.past layout f) fs).2 = last
        cases closed with
        | false => exact ⟨hrest, fun _ => hline rfl⟩
        | true =>
          cases hafter : last.afterComment with
          | false => exact ⟨by simpa [closingPieces, Cursor.commentPieces, hafter], by simp⟩
          | true =>
            simpa [closingPieces, Cursor.commentPieces, hafter, Piece.chars]
              using And.intro (breaks_newline rest) (endsLine_newline rest)
      have hitem := hfs f List.mem_cons_self (cur.enter layout f).itemCol
        (spellOut c (itemPieces layout (cur.past layout f) fs).1 ++
          (spellOut c (closingPieces closed (itemPieces layout (cur.past layout f) fs).2) ++ rest))
        h (breaks_items layout (Cursor.past_gap layout f cur) hclosing.1 fs)
        (fun hcomment => endsLine_items layout
          ((Cursor.past_afterComment layout f cur).trans hcomment) hclosing.2)
      have hbehind := ih hlater (cur.past layout f)
      rw [spellOut_append] at hbehind
      rw [← List.append_assoc] at hitem
      have hplace := (spells_gapPieces hc (cur.enter layout f) _).append (hitem.append hbehind)
      have hhead : ∀ g ∈ (f :: fs).head?, g.isNewline = false := by simpa using h
      have hwhole := (@spells_commentPieces c cur _ hhead _).append hplace
      rw [itemPieces_cons h, settleAll_cons h, hbefore, List.flatMap_append, List.flatMap_cons]
      simpa using hwhole

theorem lexes_atom (hc : Indents c) {hint : Hint} {x : Atom} (h : x.Readable)
    (hfits : Fits (.atom hint x)) : Lexes c (.atom hint x) := by
  intro w rest hbreak hrest hline
  have hkept : ∀ y, (∀ text, y ≠ Atom.string text) → settleAtom c hint x w = y → x = y := by
    intro y hy heq
    unfold settleAtom at heq
    split at heq
    · next text _ => exact absurd heq.symm (hy _)
    · exact heq
  rw [spellOut_atom]
  refine Atom.spells_text (readable_settleAtom hc h hfits w) ?_
    (clear_settleAtom hfits.1 w) hrest ?_
  · intro heq
    obtain rfl := hkept .newline (by simp) heq
    simp [Form.isNewline, Form.shape, Shape.isNewline] at hbreak
  · intro text heq
    obtain rfl := hkept (.comment text) (by simp) heq
    exact hline rfl

theorem lexes_prefixed {hint : Hint} {s : Sigil} {body : Form Hint} (hsem : body.isSemantic = true)
    (ih : Lexes c body) : Lexes c (.prefixed hint s body) := by
  intro w rest _ hrest _
  obtain ⟨hnewline, hcomment⟩ := Form.isSemantic_iff.mp hsem
  have hbody := ih (w + s.text.length) rest hnewline hrest (by simp [hcomment])
  exact (s.spells_text _).append hbody

theorem lexes_seq (hc : Indents c) {hint : Hint} {b : Bracket} {items : List (Form Hint)}
    (hb : b.Encloses inside items) (ih : ∀ f ∈ items, Lexes c f) : Lexes c (.seq hint b items) := by
  intro w rest _ _ _
  rw [formPieces_seq, settle, Form.spellings_seq]
  dsimp only
  generalize hwalked : itemPieces hint.layout (.start (w + b.openText.length)) items = walked
  generalize hlast : walked.2.close hint.layout = last
  generalize hgap : (if last.gap = .indent then [Piece.indent last.base] else []) = gap
  have hindent : Spells (spellOut c gap) [] (b.closeText.toList ++ rest) ∧
      Breaks (spellOut c gap ++ (b.closeText.toList ++ rest)) := by
    subst hgap
    split
    · simpa [Piece.chars] using And.intro (hc.spells last.base (b.closeText.toList ++ rest))
        (hc.breaks_replicate last.base (breaks_closeText b rest))
    · exact ⟨Spells.nil _, breaks_closeText b rest⟩
  have hend := hindent.1.append (b.spells_closeText rest)
  have hrest : Breaks (spellOut c gap ++ b.closeText.toList ++ rest) := by
    rw [List.append_assoc]
    exact hindent.2
  have hitems := spells_items hc hint.layout true ih (.start (w + b.openText.length)) hrest
    (by simp)
  have hopen := b.spells_openText hb (spellOut c (walked.1 ++ walked.2.commentPieces) ++
    (spellOut c gap ++ b.closeText.toList) ++ rest)
  rw [hwalked] at hitems
  have hwhole := hopen.append (hitems.append hend)
  have hnone : breakBefore true (Cursor.start (w + b.openText.length)).afterComment items = [] :=
    rfl
  rw [hnone, List.nil_append] at hwhole
  simpa [Piece.chars] using hwhole

/-- The characters of a readable form are the tokens of the settled form. -/
theorem lexes_of_readable (hc : Indents c) {f : Form Hint} (h : f.Readable inside)
    (hfits : ∀ g ∈ f.nodes, Fits g) : Lexes c f := by
  induction f using Form.induct generalizing inside with
  | atom hint x => exact lexes_atom hc h (hfits _ (Form.self_mem_nodes _))
  | prefixed hint s body ih =>
    obtain ⟨hsem, hbody⟩ := Form.readable_prefixed.mp h
    exact lexes_prefixed hsem (ih hbody fun g hg => hfits g (Form.mem_nodes_of_body hg))
  | seq hint b items ih =>
    obtain ⟨hb, hitems⟩ := Form.readable_seq.mp h
    exact lexes_seq hc hb fun f hf => ih f hf (hitems f hf) fun g hg =>
      hfits g (Form.mem_nodes_of_mem hf hg)

/-- The text of a source scans to the tokens of its settled forms. -/
theorem spell_sourcePieces (hc : Indents c) {roots : List (Form Hint)}
    (h : ∀ f ∈ roots, f.Readable false) (hfits : ∀ g ∈ Form.nodesAll roots, Fits g) :
    spell (toText c (sourcePieces roots)).toList
      = ((settled c roots).flatMap Form.spellings, none) := by
  have hroots : ∀ f ∈ roots, Lexes c f := fun f hf =>
    lexes_of_readable hc (h f hf) fun g hg => hfits g (Form.mem_nodesAll hf hg)
  have hrest : Breaks [] := by simp [Breaks]
  have hspells := spells_items hc .normal false hroots (.start 0) hrest fun _ => endsLine_nil
  have hnone : breakBefore false (Cursor.start 0).afterComment roots = [] := rfl
  rw [hnone, List.nil_append, closingPieces, if_neg (by simp), List.append_nil] at hspells
  rw [toText, String.toList_ofList]
  exact hspells.whole

end CljFormat.Layout
