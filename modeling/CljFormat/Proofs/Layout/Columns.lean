/-
CljFormat.Proofs.Layout.Columns — whether a text stands at the column at which it is set.

Every text that the layout sets carries a column, from which the columns of the lines behind it
follow. If no literal spans lines, this column is the number of characters behind the last line
break of what is written before, but for one slip. A list that is laid out as a body by a form
around it (a method of a type, a function of a `letfn`) may begin with a line break. Its second item
is then set at the column at which the items start, and indented one column deeper.

So the columns of a source are exact if and only if no such list slips (`columns_exact_iff`).
-/
import CljFormat.Proofs.Layout.Continuation
import CljFormat.Proofs.Reader.Readable
import CljFormat.Proofs.RoundTrip

namespace CljFormat

/-! ## 1. Columns of a text -/

/-- How many characters stand behind the last line break. -/
def column (cs : List Char) : Nat :=
  (cs.reverse.takeWhile (· != '\n')).length

@[simp] theorem column_nil : column [] = 0 := rfl

@[simp] theorem column_newline (cs : List Char) : column (cs ++ ['\n']) = 0 := by
  simp [column]

theorem column_append {ds : List Char} (h : '\n' ∉ ds) (cs : List Char) :
    column (cs ++ ds) = column cs + ds.length := by
  have hall : ∀ c ∈ ds.reverse, (c != '\n') = true := by
    intro c hc
    have hne : c ≠ '\n' := fun heq => h (heq ▸ List.mem_reverse.mp hc)
    simpa using hne
  rw [column, List.reverse_append, List.takeWhile_append_of_pos hall, List.length_append,
    List.length_reverse, column, Nat.add_comm]

namespace Layout

/-- The column at which a piece is set, if it is a text. -/
def Piece.col? : Piece → Option Nat
  | text col _ | docstring col _ => some col
  | space | newline | indent _ => none

/-- Behind the characters `cs`, every text of some pieces stands at the column at which it is
set. -/
def Exact (c : Char) (cs : List Char) (pieces : List Piece) : Prop :=
  ∀ before piece after, pieces = before ++ piece :: after →
    ∀ col ∈ piece.col?, column (cs ++ spellOut c before) = col

variable {c : Char} {cs : List Char} {pieces pieces' : List Piece} {piece : Piece}

/-- Pieces without a text are set exactly. -/
theorem exact_of_blank (h : ∀ piece ∈ pieces, piece.col? = none) : Exact c cs pieces := by
  intro before piece after heq col hcol
  have hblank := h piece (by simp [heq])
  simp [hblank] at hcol

theorem exact_nil : Exact c cs [] :=
  exact_of_blank (by simp)

theorem exact_cons :
    Exact c cs (piece :: pieces) ↔
      (∀ col ∈ piece.col?, column cs = col) ∧ Exact c (cs ++ piece.chars c) pieces := by
  constructor
  · intro h
    refine ⟨by simpa using h [] piece pieces rfl, fun before p after heq col hcol => ?_⟩
    simpa [heq] using h (piece :: before) p after (by simp [heq]) col hcol
  · rintro ⟨hfirst, hrest⟩ before p after heq col hcol
    cases before with
    | nil =>
      obtain ⟨rfl, rfl⟩ : piece = p ∧ pieces = after := by simpa using heq
      simpa using hfirst col hcol
    | cons q before =>
      obtain ⟨rfl, rfl⟩ : piece = q ∧ pieces = before ++ p :: after := by simpa using heq
      simpa using hrest before p after rfl col hcol

theorem exact_append :
    Exact c cs (pieces ++ pieces') ↔
      Exact c cs pieces ∧ Exact c (cs ++ spellOut c pieces) pieces' := by
  induction pieces generalizing cs with
  | nil => simp [exact_nil]
  | cons piece pieces ih => simp [exact_cons, ih, and_assoc]

/-! ## 2. Texts on one line -/

end Layout

/-- The texts that may hold line breaks: those of characters, regular expressions and strings. -/
def Form.Extract.freeTexts : Form.Extract String where
  ofAtom
    | .character _ text | .regex text | .string text => [text]
    | _ => []
  ofSigil _ := []

/-- The texts in a form that may hold line breaks. -/
def Form.freeTexts {α : Type} (f : Form α) : List String :=
  Form.Extract.freeTexts.ofForm f

/-- The text of a readable atom holds a line break only if it is free to. -/
theorem Atom.newline_not_mem_text {x : Atom} (h : x.Readable)
    (hfree : ∀ text ∈ Form.Extract.freeTexts.ofAtom x, '\n' ∉ text.toList) :
    '\n' ∉ x.text.toList := by
  cases x with
  | bool value => cases value <;> decide
  | character value text => exact hfree text (List.mem_singleton.mpr rfl)
  | comment text => exact Stands.newline_not_mem h rfl
  | keyword text => exact Stands.newline_not_mem h rfl
  | newline => decide
  | nil => decide
  | number text => exact Stands.newline_not_mem h rfl
  | regex text => simpa [Atom.text] using hfree text (List.mem_singleton.mpr rfl)
  | string text => simpa [Atom.text] using hfree text (List.mem_singleton.mpr rfl)
  | symbol text => exact Stands.newline_not_mem h.1 rfl
  | tag text => simpa [Atom.text] using Stands.newline_not_mem h rfl
  | varQuote text => simpa [Atom.text] using Stands.newline_not_mem h rfl

theorem Sigil.newline_not_mem_text (s : Sigil) : '\n' ∉ s.text.toList := by
  cases s <;> decide

theorem Bracket.newline_not_mem_openText {α : Type} {inside : Bool} {items : List (Form α)}
    {b : Bracket} (h : b.Encloses inside items) : '\n' ∉ b.openText.toList := by
  cases b with
  | map namespace? =>
    cases namespace? with
    | none => decide
    | some ns => simpa [Bracket.openText] using Stands.newline_not_mem (h.2 ns rfl) rfl
  | _ => decide

theorem Bracket.newline_not_mem_closeText (b : Bracket) : '\n' ∉ b.closeText.toList := by
  cases b <;> simp [Bracket.closeText]

namespace Layout

/-! ## 3. Forms that are set exactly -/

/-- Behind any characters, a form that is set at their column is set exactly and ends at the column
behind it. -/
def Sets (c : Char) (f : Form Hint) : Prop :=
  ∀ cs, Exact c cs (formPieces f (column cs)).1 ∧
    column (cs ++ spellOut c (formPieces f (column cs)).1) = (formPieces f (column cs)).2

/-- A docstring on one line is set as it is. -/
theorem align_of_newline_not_mem {text : String} (h : '\n' ∉ text.toList) (w : Nat) :
    Docstring.align w text = ⟨text.toList, []⟩ := by
  have hpieces : Text.pieces '\n' text.toList = (text.toList, []) := by
    simpa using @pieces_join text.toList [] h (by simp)
  rw [Docstring.align, hpieces]
  rfl

/-- The piece of an atom that is on one line, set at column `w`. -/
def linePiece (hint : Hint) (x : Atom) (w : Nat) : Piece :=
  match hint.docstring, x with
  | true, .string text => .docstring w ⟨text.toList, []⟩
  | _, x => .text w x.text

theorem linePiece_col (hint : Hint) (x : Atom) (w : Nat) :
    (linePiece hint x w).col? = some w := by
  unfold linePiece
  split <;> rfl

theorem linePiece_chars (hint : Hint) (x : Atom) (w : Nat) :
    (linePiece hint x w).chars c = x.text.toList := by
  unfold linePiece
  split
  · simp [Piece.chars, Docstring.chars, Atom.text]
  · rfl

/-- An atom on one line is one piece as long as its text, docstring or not. -/
theorem formPieces_atom {x : Atom} (h : '\n' ∉ x.text.toList) (hint : Hint) (w : Nat) :
    formPieces (.atom hint x) w = ([linePiece hint x w], w + x.text.length) := by
  obtain ⟨layout, docstring⟩ := hint
  cases docstring with
  | false => rfl
  | true =>
    cases x with
    | string text =>
      have htext : '\n' ∉ text.toList := fun hmem => h (by simp [Atom.text, hmem])
      have hquote : "\"".length = 1 := rfl
      simp [formPieces, atomPieces, linePiece, align_of_newline_not_mem htext, Docstring.length,
        Docstring.chars, Atom.text, String.length_toList, hquote]
      omega
    | _ => rfl

theorem sets_atom {x : Atom} (h : '\n' ∉ x.text.toList) (hint : Hint) :
    Sets c (.atom hint x) := by
  intro cs
  rw [formPieces_atom h]
  refine ⟨exact_cons.mpr ⟨by simp [linePiece_col], exact_nil⟩, ?_⟩
  rw [spellOut_cons, linePiece_chars, spellOut_nil, List.append_nil, column_append h,
    String.length_toList]

theorem sets_prefixed {body : Form Hint} (hbody : Sets c body) (hint : Hint) (s : Sigil) :
    Sets c (.prefixed hint s body) := by
  intro cs
  have hcol : column (cs ++ s.text.toList) = column cs + s.text.length := by
    rw [column_append s.newline_not_mem_text, String.length_toList]
  obtain ⟨hexact, hend⟩ := hbody (cs ++ s.text.toList)
  rw [hcol] at hexact hend
  rw [formPieces_prefixed]
  refine ⟨exact_cons.mpr ⟨by simp [Piece.col?], hexact⟩, ?_⟩
  simpa [Piece.chars] using hend

/-! ## 4. Places that keep up with the text -/

/-- The column of a place is that of the characters `cs` before it, unless its line is still to be
indented. -/
structure Cursor.Tracks (cs : List Char) (cur : Cursor) : Prop where
  onLine : cur.gap ≠ .indent → column cs = cur.col
  atStart : cur.gap = .indent → column cs = 0 ∧ cur.col = cur.base

/-- Whether the second item of a sequence moves the start of lines away from that of the first. -/
def deepens : Layout → Bool
  | .list | .listBody | .cond _ _ => true
  | .normal | .bindings => false

/-- No item is set behind a line break that begins its sequence, or else the layout does not
deepen. -/
structure Cursor.Steady (layout : Layout) (fs : List (Form Hint)) (cur : Cursor) : Prop where
  first : cur.index = 0 → ∀ f g rest, fs = f :: g :: rest → f.isNewline = true →
    g.isNewline = false → layout.deepens = false
  second : cur.index = 1 → cur.gap = .indent → ∀ g ∈ fs.head?, g.isNewline = false →
    layout.deepens = false

variable {layout : Layout} {cur : Cursor} {f : Form Hint} {fs : List (Form Hint)}

theorem Cursor.Tracks.breakLine (cs : List Char) (layout : Layout) (cur : Cursor) :
    (cur.breakLine layout).Tracks (cs ++ ['\n']) :=
  ⟨fun hgap => absurd rfl hgap, fun _ => ⟨column_newline cs, rfl⟩⟩

theorem Cursor.Tracks.count (h : cur.Tracks cs) (layout : Layout) (f : Form Hint) :
    (cur.count layout f).Tracks cs := by
  obtain ⟨counted, paired, hcount⟩ := cur.count_eq layout f
  rw [hcount]
  exact ⟨h.onLine, h.atStart⟩

theorem Cursor.reachSecond_of_not_deepens (h : layout.deepens = false) :
    cur.reachSecond layout = cur := by
  cases layout with
  | normal => simp [Cursor.reachSecond]
  | bindings => simp [Cursor.reachSecond]
  | _ => simp [deepens] at h

theorem Cursor.Tracks.reachSecond (h : cur.Tracks cs)
    (hsteady : cur.index = 1 → cur.gap = .indent → layout.deepens = false) :
    (cur.reachSecond layout).Tracks cs := by
  by_cases hindex : cur.index = 1
  · by_cases hgap : cur.gap = .indent
    · rwa [Cursor.reachSecond_of_not_deepens (hsteady hindex hgap)]
    · obtain ⟨base, hreach⟩ := cur.reachSecond_eq layout
      rw [hreach]
      exact ⟨h.onLine, fun hindent => absurd hindent hgap⟩
  · rwa [Cursor.reachSecond_of_ne_one hindex]

/-- The place of an item keeps up with the line break that a comment before it needs. -/
theorem Cursor.Tracks.enter (h : cur.Tracks cs)
    (hsteady : cur.index = 1 → cur.gap = .indent → layout.deepens = false) (f : Form Hint) :
    (cur.enter layout f).Tracks (cs ++ spellOut c cur.commentPieces) := by
  unfold Cursor.enter Cursor.commentPieces
  cases cur.afterComment with
  | true => simpa [Piece.chars] using (Cursor.Tracks.breakLine cs layout cur).count layout f
  | false =>
    obtain ⟨counted, paired, hcount⟩ := cur.count_eq layout f
    have hcounted : (cur.count layout f).index = cur.index ∧
        (cur.count layout f).gap = cur.gap := by simp [hcount]
    simpa using (h.count layout f).reachSecond (by simpa [hcounted] using hsteady)

theorem Cursor.Tracks.close (h : cur.Tracks cs) (layout : Layout) :
    (cur.close layout).Tracks (cs ++ spellOut c cur.commentPieces) := by
  unfold Cursor.close Cursor.commentPieces
  cases cur.afterComment with
  | true => simpa [Piece.chars] using Cursor.Tracks.breakLine cs layout cur
  | false => simpa using h

theorem exact_commentPieces (cur : Cursor) : Exact c cs cur.commentPieces := by
  refine exact_of_blank ?_
  unfold Cursor.commentPieces
  split <;> simp [Piece.col?]

theorem exact_gapPieces (cur : Cursor) : Exact c cs cur.gapPieces := by
  refine exact_of_blank ?_
  unfold Cursor.gapPieces
  split <;> simp [Piece.col?]

theorem column_replicate (hc : Indents c) (cs : List Char) (n : Nat) :
    column (cs ++ List.replicate n c) = column cs + n := by
  have hnone : '\n' ∉ List.replicate n c := by
    intro hmem
    exact hc.ne_newline (List.eq_of_mem_replicate hmem).symm
  rw [column_append hnone, List.length_replicate]

/-- An item is set where the text ends behind the gap before it. -/
theorem Cursor.Tracks.gap (hc : Indents c) (h : cur.Tracks cs) :
    column (cs ++ spellOut c cur.gapPieces) = cur.itemCol := by
  cases hgap : cur.gap with
  | none =>
    have hcol := h.onLine (by simp [hgap])
    simpa [Cursor.gapPieces, Cursor.itemCol, hgap] using hcol
  | space =>
    have hcol := h.onLine (by simp [hgap])
    have hspace : '\n' ∉ [' '] := by decide
    simp [Cursor.gapPieces, Cursor.itemCol, hgap, Piece.chars, column_append hspace, hcol]
  | indent =>
    obtain ⟨hzero, hbase⟩ := h.atStart hgap
    simp [Cursor.gapPieces, Cursor.itemCol, hgap, Piece.chars, column_replicate hc, hzero, hbase]

/-- A closing delimiter is set where the text ends behind the indentation before it. -/
theorem Cursor.Tracks.closing (hc : Indents c) (h : cur.Tracks cs) :
    column (cs ++ spellOut c (if cur.gap = .indent then [.indent cur.base] else [])) = cur.col := by
  by_cases hgap : cur.gap = .indent
  · obtain ⟨hzero, hbase⟩ := h.atStart hgap
    simp [hgap, Piece.chars, column_replicate hc, hzero, hbase]
  · simpa [hgap] using h.onLine hgap

theorem Cursor.Steady.newline (h : cur.Steady layout (f :: fs)) (hf : f.isNewline = true) :
    (cur.passNewline layout).Steady layout fs := by
  refine ⟨fun hindex => absurd hindex (Nat.succ_ne_zero _), fun hindex _ g hg hnot => ?_⟩
  have hzero : cur.index = 0 := Nat.succ.inj hindex
  cases fs with
  | nil => simp at hg
  | cons g' rest =>
    obtain rfl : g' = g := by simpa using hg
    exact h.first hzero f g' rest rfl hf hnot

theorem Cursor.Steady.past (layout : Layout) (f : Form Hint) (fs : List (Form Hint))
    (cur : Cursor) : (cur.past layout f).Steady layout fs :=
  ⟨fun hindex => absurd hindex (Nat.succ_ne_zero _), fun _ hgap => absurd hgap (by simp)⟩

/-- Along items that are set exactly, the places keep up with the text. -/
theorem Cursor.Tracks.items (hc : Indents c) (hfs : ∀ f ∈ fs, Sets c f) (h : cur.Tracks cs)
    (hsteady : cur.Steady layout fs) :
    Exact c cs (itemPieces layout cur fs).1 ∧
      (itemPieces layout cur fs).2.Tracks (cs ++ spellOut c (itemPieces layout cur fs).1) := by
  induction fs generalizing cur cs with
  | nil => simpa [itemPieces_nil, exact_nil] using h
  | cons f fs ih =>
    have hrest := fun g hg => hfs g (List.mem_cons_of_mem _ hg)
    cases hf : f.isNewline with
    | true =>
      have hbreak : (cur.passNewline layout).Tracks (cs ++ ['\n']) :=
        ⟨fun hgap => absurd rfl hgap, fun _ => ⟨column_newline cs, rfl⟩⟩
      obtain ⟨hexact, htracks⟩ := ih hrest hbreak (hsteady.newline hf)
      rw [itemPieces_newline hf]
      exact ⟨exact_cons.mpr ⟨by simp [Piece.col?], hexact⟩, by simpa [Piece.chars] using htracks⟩
    | false =>
      have henter := h.enter (c := c)
        (fun hindex hgap => hsteady.second hindex hgap f rfl hf) f
      have hcol := henter.gap hc
      obtain ⟨hexact, hend⟩ := hfs f List.mem_cons_self
        (cs ++ spellOut c cur.commentPieces ++ spellOut c (cur.enter layout f).gapPieces)
      rw [hcol] at hexact hend
      have hpast : (cur.past layout f).Tracks
          (cs ++ spellOut c cur.commentPieces ++ spellOut c (cur.enter layout f).gapPieces ++
            spellOut c (formPieces f (cur.enter layout f).itemCol).1) :=
        ⟨fun _ => hend, fun hgap => absurd hgap (by simp)⟩
      obtain ⟨hlater, htracks⟩ := ih hrest hpast (Cursor.Steady.past layout f fs cur)
      rw [itemPieces_cons hf]
      simp only [exact_append, spellOut_append, ← List.append_assoc]
      exact ⟨⟨⟨⟨exact_commentPieces cur, exact_gapPieces _⟩, hexact⟩, hlater⟩, htracks⟩

theorem Cursor.Tracks.start (cs : List Char) : (Cursor.start (column cs)).Tracks cs :=
  ⟨fun _ => rfl, fun hgap => absurd hgap (by simp [Cursor.start])⟩

theorem sets_seq (hc : Indents c) {hint : Hint} {b : Bracket} {items : List (Form Hint)}
    (hopen : '\n' ∉ b.openText.toList) (hitems : ∀ f ∈ items, Sets c f)
    (hsteady : ∀ w, (Cursor.start w).Steady hint.layout items) :
    Sets c (.seq hint b items) := by
  intro cs
  have hcol : column (cs ++ b.openText.toList) = column cs + b.openText.length := by
    rw [column_append hopen, String.length_toList]
  have hstart := Cursor.Tracks.start (cs ++ b.openText.toList)
  rw [hcol] at hstart
  obtain ⟨hexact, htracks⟩ := hstart.items hc hitems (hsteady _)
  have hclose := htracks.close (c := c) hint.layout
  have hcloser := hclose.closing hc
  rw [formPieces_seq]
  dsimp only
  generalize itemPieces hint.layout (.start (column cs + b.openText.length)) items = walked
    at hexact hclose hcloser
  obtain ⟨pieces, cur⟩ := walked
  have hgap : ∀ ds, Exact c ds (if (cur.close hint.layout).gap = .indent then
      [.indent (cur.close hint.layout).base] else []) := by
    intro ds
    refine exact_of_blank ?_
    split <;> simp [Piece.col?]
  have htext : ∀ ds col text, ds ++ Piece.chars c (.text col text) = ds ++ text.toList :=
    fun _ _ _ => rfl
  simp only [List.cons_append, exact_cons, exact_append, spellOut_cons, spellOut_append,
    spellOut_nil, List.append_nil, ← List.append_assoc, htext]
  refine ⟨⟨by simp [Piece.col?], ⟨⟨hexact, exact_commentPieces cur⟩, hgap _⟩,
    ⟨by simpa [Piece.col?] using hcloser, exact_nil⟩⟩, ?_⟩
  rw [column_append b.newline_not_mem_closeText, hcloser, String.length_toList]

/-! ## 5. Lists that slip -/

/-- A sequence whose second item is set one column before the place it is indented to: it is laid
out as a body, begins with a line break, and something other than a line break follows. -/
def Slips : Form Hint → Prop
  | .seq hint _ (f :: g :: _) =>
    hint.layout = .listBody ∧ f.isNewline = true ∧ g.isNewline = false
  | _ => False

instance : DecidablePred Slips
  | .seq hint _ (f :: g :: _) =>
    inferInstanceAs (Decidable (hint.layout = .listBody ∧ f.isNewline = true ∧ g.isNewline = false))
  | .seq _ _ [] | .seq _ _ [_] | .atom _ _ | .prefixed _ _ _ => isFalse id

/-- A sequence that begins with a line break deepens only if it is laid out as a body. -/
theorem ofSeq_of_newline (ctx : Context) {head : Form Label} (hhead : head.isNewline = true)
    (p : Pending) (id : Nat) (b : Bracket) (rest : List (Form Label)) :
    (ofSeq ctx p id b (head :: rest)).1 = .listBody ∨
      (ofSeq ctx p id b (head :: rest)).1.deepens = false := by
  obtain ⟨l, rfl⟩ := Form.eq_newline hhead
  cases b with
  | list =>
    -- The head is no symbol, so its style is `normal`, which a form around the list may replace.
    have hstyle : ctx.headStyle (.atom l .newline :: rest) = .normal := rfl
    have hcondp : (((Form.atom l .newline :: rest).head?.bind fun head =>
        head.shape.symbol?).any fun sym => Symbol.baseName sym == "condp") = false := rfl
    simp only [ofSeq, ofList, hstyle, hcondp]
    generalize ((Pending.ofCall .normal (.atom l .newline :: rest)).merge p).bodies.contains id
      = body
    generalize ctx.marks.threaded.contains id = threaded
    cases body with
    | true => exact .inl (by cases threaded <;> rfl)
    | false => exact .inr (by cases threaded <;> rfl)
  | vector =>
    right
    rw [ofSeq]
    split <;> rfl
  | _ => exact .inr rfl

/-- In a plan, no item is set behind a line break that begins its sequence where the layout deepens,
unless the sequence slips. -/
theorem deepens_of_not_slips {ctx : Context} {p : Pending} {roots : List (Form Label)}
    {hint : Hint} {b : Bracket} {g : Form Hint} {rest : List (Form Hint)}
    (hmem : .seq hint b (f :: g :: rest) ∈ Form.nodesAll (planAll ctx p roots).1)
    (hslips : ¬ Slips (.seq hint b (f :: g :: rest))) (hf : f.isNewline = true)
    (hg : g.isNewline = false) : hint.layout.deepens = false := by
  rw [Form.nodesAll_eq_flatMap] at hmem
  obtain ⟨q, l, labelled, -, hbare, hlayout⟩ := seq_of_mem_planAll p roots hmem
  match labelled, hbare, hlayout with
  | head :: rest, hbare, hlayout =>
    have hhead : head.isNewline = true := by
      have hsame : f.bare = head.bare := (List.cons.inj hbare).1
      rw [← Form.isNewline_bare, ← hsame, Form.isNewline_bare, hf]
    rcases ofSeq_of_newline ctx hhead q l.id b rest with hbody | hdeepens
    · exact absurd ⟨hlayout.trans hbody, hf, hg⟩ hslips
    · rw [hlayout, hdeepens]

/-- Readable forms of which none slips are set exactly, if no text in them holds a line break. -/
theorem sets_of_readable (hc : Indents c) {inside : Bool} (h : f.Readable inside)
    (hfree : ∀ text ∈ f.freeTexts, '\n' ∉ text.toList)
    (hsteady : ∀ hint b f' g rest, .seq hint b (f' :: g :: rest) ∈ f.nodes →
      f'.isNewline = true → g.isNewline = false → hint.layout.deepens = false) : Sets c f := by
  induction f using Form.induct generalizing inside with
  | atom hint x =>
    exact sets_atom (Atom.newline_not_mem_text h (by simpa [Form.freeTexts] using hfree)) hint
  | prefixed hint s body ih =>
    exact sets_prefixed (ih (Form.readable_prefixed.mp h).2 hfree fun hint b f' g rest hmem =>
      hsteady hint b f' g rest (Form.mem_nodes_of_body hmem)) hint s
  | seq hint b items ih =>
    obtain ⟨hb, hitems⟩ := Form.readable_seq.mp h
    refine sets_seq hc (Bracket.newline_not_mem_openText hb) ?_ ?_
    · intro g hg
      refine ih g hg (hitems g hg) (fun text htext => hfree text ?_)
        fun hint b f' g' rest hmem => hsteady hint b f' g' rest (Form.mem_nodes_of_mem hg hmem)
      rw [Form.freeTexts, Form.Extract.ofForm_seq]
      exact List.mem_flatMap.mpr ⟨g, hg, htext⟩
    · intro w
      refine ⟨?_, fun hindex => absurd hindex (by simp [Cursor.start])⟩
      rintro - f' g rest rfl hf hg
      exact hsteady hint b f' g rest (Form.self_mem_nodes _) hf hg

/-! ## 6. Where a list slips, a column is wrong -/

/-- The items of a sequence that is set exactly are set exactly. -/
theorem exact_of_mem_items (h : Exact c cs (itemPieces layout cur fs).1) (hf : f ∈ fs)
    (hnot : f.isNewline = false) : ∃ ds w, Exact c ds (formPieces f w).1 := by
  induction fs generalizing cur cs with
  | nil => exact absurd hf List.not_mem_nil
  | cons g fs ih =>
    cases hg : g.isNewline with
    | true =>
      rw [itemPieces_newline hg, exact_cons] at h
      rcases List.mem_cons.mp hf with rfl | hf
      · exact absurd hg (by simp [hnot])
      · exact ih h.2 hf
    | false =>
      rw [itemPieces_cons hg, exact_append, exact_append] at h
      rcases List.mem_cons.mp hf with rfl | hf
      · exact ⟨_, _, h.1.2⟩
      · exact ih h.2 hf

/-- Whatever stands below a form that is set exactly is set exactly. -/
theorem exact_of_mem_nodes {w : Nat} {g : Form Hint} (h : Exact c cs (formPieces f w).1)
    (hg : g ∈ f.nodes) (hnot : g.isNewline = false) : ∃ ds v, Exact c ds (formPieces g v).1 := by
  induction f using Form.induct generalizing cs w with
  | atom hint x =>
    obtain rfl : g = .atom hint x := by simpa using hg
    exact ⟨cs, w, h⟩
  | prefixed hint s body ih =>
    rw [Form.nodes_prefixed, List.mem_cons] at hg
    rcases hg with rfl | hg
    · exact ⟨cs, w, h⟩
    · rw [formPieces_prefixed, exact_cons] at h
      exact ih h.2 hg
  | seq hint b items ih =>
    rw [Form.nodes_seq, List.mem_cons] at hg
    rcases hg with rfl | hg
    · exact ⟨cs, w, h⟩
    · obtain ⟨k, hk, hg⟩ := List.mem_flatMap.mp hg
      rw [formPieces_seq] at h
      simp only [List.cons_append, exact_cons, exact_append] at h
      obtain ⟨ds, v, hexact⟩ :=
        exact_of_mem_items h.2.1.1.1 hk (Form.isNewline_of_mem_nodes hg hnot)
      exact ih k hk hexact hg

/-- Every form begins with a text at its column. -/
theorem head_formPieces (f : Form Hint) (w : Nat) :
    ∃ piece rest, (formPieces f w).1 = piece :: rest ∧ piece.col? = some w := by
  cases f with
  | atom hint x =>
    obtain ⟨layout, docstring⟩ := hint
    cases docstring with
    | false => exact ⟨.text w x.text, [], rfl, rfl⟩
    | true => cases x <;> exact ⟨_, [], rfl, rfl⟩
  | prefixed hint s body => exact ⟨.text w s.text, _, rfl, rfl⟩
  | seq hint b items => exact ⟨.text w b.openText, _, rfl, rfl⟩

/-- The second item of a list that slips is indented one column deeper than it is set. -/
theorem formPieces_of_slips {hint hint' : Hint} {b : Bracket} {g : Form Hint}
    {rest : List (Form Hint)}
    (h : Slips (.seq hint b (.atom hint' .newline :: g :: rest))) (w : Nat) :
    ∃ v later, (formPieces (.seq hint b (.atom hint' .newline :: g :: rest)) w).1
      = .text w b.openText :: .newline :: .indent (v + 1) :: (formPieces g v).1 ++ later := by
  obtain ⟨hlayout, hnewline, hg⟩ := h
  let start := Cursor.start (w + b.openText.length)
  obtain ⟨counted, paired, hcount⟩ := (start.passNewline .listBody).count_eq .listBody g
  have henter : (start.passNewline .listBody).enter .listBody g
      = { base := start.base + 1, col := start.base, gap := .indent, index := 1, counted,
          paired } := by
    rw [Cursor.enter, if_neg (by simp [Cursor.passNewline, Cursor.breakLine]), hcount]
    rfl
  have hgap : ((start.passNewline .listBody).enter .listBody g).gapPieces
      = [.indent (start.base + 1)] := by rw [henter]; rfl
  have hcol : ((start.passNewline .listBody).enter .listBody g).itemCol = start.base := by
    rw [henter]
    rfl
  have hnone : (start.passNewline .listBody).commentPieces = [] := rfl
  rw [formPieces_seq, hlayout, itemPieces_newline hnewline, itemPieces_cons hg, hnone, hgap, hcol]
  simp only [List.cons_append, List.append_assoc, List.nil_append]
  exact ⟨start.base, _, rfl⟩

/-- Where a list slips, a column is wrong. -/
theorem not_exact_of_slips (hc : Indents c) {w : Nat} (h : Slips f) :
    ¬ Exact c cs (formPieces f w).1 := by
  match f, h with
  | .seq hint b (k :: g :: rest), h =>
    intro hexact
    obtain ⟨hint', rfl⟩ := Form.eq_newline h.2.1
    obtain ⟨v, later, hpieces⟩ := formPieces_of_slips h w
    obtain ⟨piece, pieces, hhead, hcol⟩ := head_formPieces g v
    rw [hpieces, hhead] at hexact
    simp only [List.cons_append, exact_cons] at hexact
    have hset := hexact.2.2.2.1 v hcol
    have hindented : column (cs ++ Piece.chars c (.text w b.openText) ++ Piece.chars c .newline ++
        Piece.chars c (.indent (v + 1))) = v + 1 := by
      show column (cs ++ _ ++ ['\n'] ++ List.replicate (v + 1) c) = v + 1
      rw [column_replicate hc, column_newline, Nat.zero_add]
    omega

/-! ## 7. The columns of a source -/

variable {config : Config}

/-- The forms of a plan are set exactly if and only if none of them slips. -/
theorem exact_iff_not_slips (hc : Indents c) {inside : Bool} {ctx : Context} {p : Pending}
    {roots : List (Form Label)} (h : ∀ f ∈ (planAll ctx p roots).1, f.Readable inside)
    (hfree : ∀ f ∈ (planAll ctx p roots).1, ∀ text ∈ f.freeTexts, '\n' ∉ text.toList) :
    Exact c [] (sourcePieces (planAll ctx p roots).1) ↔
      ∀ f ∈ Form.nodesAll (planAll ctx p roots).1, ¬ Slips f := by
  constructor
  · intro hexact f hf hslips
    rw [Form.nodesAll_eq_flatMap] at hf
    obtain ⟨root, hroot, hf⟩ := List.mem_flatMap.mp hf
    have hnot : f.isNewline = false := by
      cases f with
      | seq hint b items => rfl
      | _ => exact hslips.elim
    obtain ⟨cs, w, hset⟩ :=
      exact_of_mem_items hexact hroot (Form.isNewline_of_mem_nodes hf hnot)
    obtain ⟨ds, v, hset⟩ := exact_of_mem_nodes hset hf hnot
    exact not_exact_of_slips hc hslips hset
  · intro hslips
    have hstart : (Cursor.start 0).Tracks [] := Cursor.Tracks.start []
    refine (hstart.items hc (fun f hf => ?_) ⟨fun _ _ _ _ _ _ _ => rfl, ?_⟩).1
    · refine sets_of_readable hc (h f hf) (hfree f hf) fun hint b f' g rest hmem hf' hg => ?_
      have hnode := Form.mem_nodesAll hf hmem
      exact deepens_of_not_slips hnode (hslips _ hnode) hf' hg
    · exact fun hindex => absurd hindex (by simp [Cursor.start])

end Layout

/-- If no character, regular expression or string of a source holds a line break, its forms are laid
out at the columns at which their text stands if and only if no list in the plan slips. -/
theorem columns_exact_iff {config : Config} {source : String} {d : Reader.Document}
    (hindent : Layout.Indents config.indentChar) (hread : Reader.read .everything source = .ok d)
    (hlines : ∀ f ∈ d.roots, ∀ text ∈ f.freeTexts, '\n' ∉ text.toList) :
    let roots := Transform.applyAll config.transforms d.roots
    formatForms config roots
        = .ok (Layout.toText config.indentChar (layOut config.table roots)) ∧
      (Layout.Exact config.indentChar [] (layOut config.table roots) ↔
        ∀ f ∈ Form.nodesAll (planned config.table roots), ¬ Layout.Slips f) := by
  intro roots
  have hreadable : ∀ f ∈ roots, f.Readable false :=
    Transform.readable_applyAll config.transforms (Reader.readable_of_read hread)
  refine ⟨by rw [formatForms, strayNewlineAmong_eq_none roots hreadable], ?_⟩
  refine Layout.exact_iff_not_slips hindent (readable_planned hreadable) fun f hf text htext => ?_
  have hbare : (planned config.table roots).map Form.bare = roots.map Form.bare :=
    Layout.bare_planAll {} roots
  have hsame : (planned config.table roots).flatMap Form.freeTexts
      = d.roots.flatMap Form.freeTexts := by
    calc (planned config.table roots).flatMap Form.freeTexts
        = ((planned config.table roots).map Form.bare).flatMap Form.freeTexts :=
          (Form.Extract.freeTexts.flatMap_ofForm_bare _).symm
      _ = roots.flatMap Form.freeTexts := by
          rw [hbare]
          exact Form.Extract.freeTexts.flatMap_ofForm_bare roots
      _ = d.roots.flatMap Form.freeTexts :=
          Transform.ofForm_applyAll (e := Form.Extract.freeTexts) rfl config.transforms d.roots
  have hmem : text ∈ d.roots.flatMap Form.freeTexts :=
    hsame ▸ List.mem_flatMap.mpr ⟨f, hf, htext⟩
  obtain ⟨g, hg, hfree⟩ := List.mem_flatMap.mp hmem
  exact hlines g hg text hfree

/-- The lines of a method that begins on the line of its bracket stand where they are set. -/
theorem columns_exact_of_method :
    ∃ d, Reader.read .everything "(deftype A\n(foo\n(bar a\nb)))" = .ok d ∧
      Layout.Exact ' ' [] (layOut {} d.roots) := by
  have hread : ∃ d, Reader.read .everything "(deftype A\n(foo\n(bar a\nb)))" = .ok d ∧
      (∀ f ∈ d.roots, ∀ text ∈ f.freeTexts, '\n' ∉ text.toList) ∧
      ∀ f ∈ Form.nodesAll (planned {} d.roots), ¬ Layout.Slips f := ⟨_, rfl, by decide, by decide⟩
  obtain ⟨d, hread, hlines, hslips⟩ := hread
  have hexact := (@columns_exact_iff {} _ d (.inl rfl) hread hlines).2
  rw [Transform.applyAll_nil] at hexact
  exact ⟨d, hread, hexact.mpr hslips⟩

/-- In the body of a type, a method that begins with a line break slips: `(foo a b)` is set at
column 3 where column 4 is reached, and `b` does not stand under `a`. -/
theorem column_of_slip :
    ∃ d before after, Reader.read .everything "(deftype A\n(\n(foo a\nb)))" = .ok d ∧
      (∀ f ∈ d.roots, ∀ text ∈ f.freeTexts, '\n' ∉ text.toList) ∧
      layOut {} d.roots = before ++ .text 3 "(" :: after ∧
      column (Layout.spellOut ' ' before) = 4 ∧
      format {} "(deftype A\n(\n(foo a\nb)))"
        = .ok "(deftype A\n  (\n    (foo a\n        b)))" := by
  refine ⟨_, [.text 0 "(", .text 1 "deftype", .space, .text 9 "A", .newline, .indent 2, .text 2 "(",
    .newline, .indent 4], _, rfl, by decide, rfl, by decide, rfl⟩

end CljFormat
