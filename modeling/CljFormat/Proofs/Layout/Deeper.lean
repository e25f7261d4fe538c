/-
CljFormat.Proofs.Layout.Deeper — the same forms one column deeper.

Where a form is set is all that the layout is asked: set one column deeper, its pieces are the same
but that every column and all indentation is one more (`formPieces_succ`). Forms whose strings,
regular expressions and characters hold no line break are set on lines that begin with their
indentation (`onLines_formPieces`). So setting them deeper indents every line but the first by one
more character, unless it is empty (`toText_fnLiteral`).
-/
import CljFormat.Proofs.Layout.Columns

namespace CljFormat

/-! ## 1. Texts with deeper lines -/

/-- A text with one more character at the start of every line but the first, empty lines apart. -/
def indentLater (c : Char) (s : String) : String :=
  let (first, later) := Text.pieces '\n' s.toList
  String.ofList (first ++ later.flatMap fun line => '\n' :: if line.isEmpty then [] else c :: line)

namespace Layout

variable {c : Char} {layout : Layout} {cur cur' : Cursor} {f : Form Hint} {fs : List (Form Hint)}
  {pieces pieces' : List Piece} {fresh : Bool}

/-- Characters with one more `c` wherever a line begins; `fresh` says whether one begins at the
start. -/
def deepen (c : Char) : (fresh : Bool) → List Char → List Char
  | _, [] => []
  | fresh, d :: ds =>
    if d = '\n' then '\n' :: deepen c true ds
    else (if fresh then [c] else []) ++ d :: deepen c false ds

/-- On a line that has begun, everything up to the next line break stays. -/
theorem deepen_append {cs : List Char} (h : '\n' ∉ cs) (ds : List Char) :
    deepen c false (cs ++ ds) = cs ++ deepen c false ds := by
  induction cs with
  | nil => rfl
  | cons d cs ih =>
    rw [List.mem_cons, not_or] at h
    rw [List.cons_append, deepen, if_neg (Ne.symm h.1), ih h.2]
    rfl

/-- A line that begins is one character deeper if there is anything on it. -/
theorem deepen_eq (c : Char) (fresh : Bool) (cs : List Char) :
    deepen c fresh cs
      = (if fresh && !(Text.pieces '\n' cs).1.isEmpty then [c] else []) ++
        ((Text.pieces '\n' cs).1 ++ (Text.pieces '\n' cs).2.flatMap fun line =>
          '\n' :: if line.isEmpty then [] else c :: line) := by
  induction cs generalizing fresh with
  | nil => simp [deepen, Text.pieces]
  | cons d cs ih =>
    rw [deepen, Text.pieces]
    dsimp only
    split
    · rw [ih true]
      cases hline : (Text.pieces '\n' cs).1 <;> simp
    · rw [ih false]
      simp

theorem indentLater_toList (c : Char) (s : String) :
    (indentLater c s).toList = deepen c false s.toList := by
  simp [indentLater, deepen_eq]

/-! ## 2. Pieces one column deeper -/

/-- A piece one column deeper. A docstring of several lines is not just moved. -/
def Piece.deeper : Piece → Piece
  | text col s => text (col + 1) s
  | docstring col d => docstring (col + 1) d
  | space => space
  | newline => newline
  | indent width => indent (width + 1)

/-- Set one column deeper, a form has the same pieces one column deeper. -/
def Shifts (f : Form Hint) : Prop :=
  ∀ w, formPieces f (w + 1) = ((formPieces f w).1.map Piece.deeper, (formPieces f w).2 + 1)

/-- The same place one column deeper. The end of the first item counts only where lines start behind
it. -/
structure Cursor.Deeper (layout : Layout) (cur cur' : Cursor) : Prop where
  base : cur'.base = cur.base + 1
  col : cur'.col = cur.col + 1
  gap : cur'.gap = cur.gap
  afterComment : cur'.afterComment = cur.afterComment
  index : cur'.index = cur.index
  counted : cur'.counted = cur.counted
  paired : cur'.paired = cur.paired
  hanging : cur'.hanging = cur.hanging
  headEnd : layout = .list → cur.index ≠ 0 → cur'.headEnd = cur.headEnd + 1

/-- Where lines start behind the first item, that item is no line break. -/
def Led : Form Hint → Prop
  | .seq hint _ (f :: _) => hint.layout = .list → f.isNewline = false
  | _ => True

theorem Cursor.Deeper.start (layout : Layout) (w : Nat) :
    (Cursor.start w).Deeper layout (.start (w + 1)) :=
  ⟨rfl, rfl, rfl, rfl, rfl, rfl, rfl, rfl, fun _ h => absurd rfl h⟩

theorem Cursor.Deeper.stepsIn (h : cur.Deeper layout cur') :
    cur'.stepsIn layout = cur.stepsIn layout := by
  unfold Cursor.stepsIn
  rw [h.index]

theorem Cursor.Deeper.atSecond (h : cur.Deeper layout cur') :
    cur'.atSecond layout = cur.atSecond layout := by
  unfold Cursor.atSecond
  rw [h.counted, h.paired]

theorem Cursor.Deeper.breakLine (h : cur.Deeper layout cur') :
    (cur.breakLine layout).Deeper layout (cur'.breakLine layout) := by
  have hbase : (cur'.breakLine layout).base = (cur.breakLine layout).base + 1 := by
    simp only [Cursor.breakLine, h.stepsIn, h.atSecond, h.hanging, h.base]
    split
    · rfl
    · split <;> omega
  refine ⟨hbase, hbase, rfl, rfl, h.index, h.counted, h.paired, ?_, h.headEnd⟩
  simp only [Cursor.breakLine, h.stepsIn, h.atSecond, h.hanging]

theorem Cursor.Deeper.passNewline (h : cur.Deeper layout cur')
    (hled : layout = .list → cur.index ≠ 0) :
    (cur.passNewline layout).Deeper layout (cur'.passNewline layout) := by
  have hbreak := h.breakLine
  exact ⟨hbreak.base, hbreak.col, rfl, rfl, congrArg (· + 1) h.index, h.counted, h.paired,
    hbreak.hanging, fun hlist _ => h.headEnd hlist (hled hlist)⟩

theorem Cursor.Deeper.count (h : cur.Deeper layout cur') (f : Form Hint) :
    (cur.count layout f).Deeper layout (cur'.count layout f) := by
  have hcounts : (cur'.count layout f).counted = (cur.count layout f).counted ∧
      (cur'.count layout f).paired = (cur.count layout f).paired := by
    cases hf : pairsUp f with
    | false =>
      rw [cur.count_of_not_pairsUp hf, cur'.count_of_not_pairsUp hf]
      exact ⟨h.counted, h.paired⟩
    | true =>
      rw [cur.count_of_pairsUp hf, cur'.count_of_pairsUp hf]
      cases layout <;> simp [h.counted, h.paired]
  obtain ⟨counted, paired, hcount⟩ := cur.count_eq layout f
  obtain ⟨counted', paired', hcount'⟩ := cur'.count_eq layout f
  rw [hcount, hcount'] at hcounts ⊢
  exact ⟨h.base, h.col, h.gap, h.afterComment, h.index, hcounts.1, hcounts.2, h.hanging, h.headEnd⟩

theorem Cursor.Deeper.reachSecond (h : cur.Deeper layout cur') :
    (cur.reachSecond layout).Deeper layout (cur'.reachSecond layout) := by
  by_cases hindex : cur.index = 1
  · have hbase : (cur'.reachSecond layout).base = (cur.reachSecond layout).base + 1 := by
      rw [Cursor.reachSecond_base hindex, Cursor.reachSecond_base (h.index.trans hindex)]
      cases layout with
      | list => simp [h.headEnd rfl (by omega)]
      | _ => simp [h.base]
    obtain ⟨base, hreach⟩ := cur.reachSecond_eq layout
    obtain ⟨base', hreach'⟩ := cur'.reachSecond_eq layout
    rw [hreach, hreach'] at hbase ⊢
    exact ⟨hbase, h.col, h.gap, h.afterComment, h.index, h.counted, h.paired, h.hanging, h.headEnd⟩
  · rwa [Cursor.reachSecond_of_ne_one hindex, Cursor.reachSecond_of_ne_one (h.index ▸ hindex)]

theorem Cursor.Deeper.enter (h : cur.Deeper layout cur') (f : Form Hint) :
    (cur.enter layout f).Deeper layout (cur'.enter layout f) := by
  unfold Cursor.enter
  rw [h.afterComment]
  split
  · exact h.breakLine.count f
  · exact (h.count f).reachSecond

theorem Cursor.Deeper.close (h : cur.Deeper layout cur') :
    (cur.close layout).Deeper layout (cur'.close layout) := by
  unfold Cursor.close
  rw [h.afterComment]
  split
  · exact h.breakLine
  · exact h

theorem Cursor.Deeper.itemCol (h : cur.Deeper layout cur') : cur'.itemCol = cur.itemCol + 1 := by
  unfold Cursor.itemCol
  rw [h.gap, h.col]
  split <;> rfl

theorem Cursor.Deeper.leave (h : cur.Deeper layout cur') (hhangs : cur.Hangs layout)
    (f : Form Hint) (w : Nat) : (cur.leave f w).Deeper layout (cur'.leave f (w + 1)) := by
  refine ⟨?_, rfl, rfl, rfl, congrArg (· + 1) h.index, h.counted, h.paired, rfl, ?_⟩
  · simp only [Cursor.leave, h.hanging, h.base]
    split
    · next hhanging =>
      have hdeep := (hhangs hhanging).1
      omega
    · rfl
  · intro hlist _
    simp only [Cursor.leave, h.index]
    split
    · rfl
    · next hindex => exact h.headEnd hlist hindex

theorem Cursor.Deeper.past (h : cur.Deeper layout cur') (hhangs : cur.Hangs layout)
    (hf : Shifts f) : (cur.past layout f).Deeper layout (cur'.past layout f) := by
  have henter := h.enter f
  unfold Cursor.past
  rw [henter.itemCol, hf]
  exact henter.leave (hhangs.enter f) f _

theorem Cursor.Deeper.commentPieces (h : cur.Deeper layout cur') :
    cur'.commentPieces = cur.commentPieces.map Piece.deeper := by
  rw [Cursor.commentPieces, Cursor.commentPieces, h.afterComment]
  split <;> rfl

theorem Cursor.Deeper.gapPieces (h : cur.Deeper layout cur') :
    cur'.gapPieces = cur.gapPieces.map Piece.deeper := by
  rw [Cursor.gapPieces, Cursor.gapPieces, h.gap, h.base]
  split <;> rfl

/-- Items that are set from a place one column deeper have the same pieces one column deeper. -/
theorem Cursor.Deeper.items (h : cur.Deeper layout cur') (hhangs : cur.Hangs layout)
    (hled : layout = .list → cur.index = 0 → ∀ f ∈ fs.head?, f.isNewline = false)
    (hfs : ∀ f ∈ fs, Shifts f) :
    (itemPieces layout cur' fs).1 = (itemPieces layout cur fs).1.map Piece.deeper ∧
      (itemPieces layout cur fs).2.Deeper layout (itemPieces layout cur' fs).2 := by
  induction fs generalizing cur cur' with
  | nil => exact ⟨rfl, h⟩
  | cons f fs ih =>
    have hrest := fun g hg => hfs g (List.mem_cons_of_mem _ hg)
    cases hf : f.isNewline with
    | true =>
      have hindex : layout = .list → cur.index ≠ 0 := by
        intro hlist hzero
        simp [hled hlist hzero f rfl] at hf
      obtain ⟨hlater, hend⟩ := ih (h.passNewline hindex) hhangs.breakLine
        (fun _ hzero => absurd hzero (Nat.succ_ne_zero _)) hrest
      rw [itemPieces_newline hf, itemPieces_newline hf]
      exact ⟨congrArg (Piece.newline :: ·) hlater, hend⟩
    | false =>
      have hpast : (cur.past layout f).Hangs layout := fun hhang =>
        absurd hhang (by simp [Cursor.past, Cursor.leave])
      obtain ⟨hlater, hend⟩ := ih (h.past hhangs (hfs f List.mem_cons_self)) hpast
        (fun _ hzero => absurd hzero (Nat.succ_ne_zero _)) hrest
      have hitem := hfs f List.mem_cons_self (cur.enter layout f).itemCol
      rw [itemPieces_cons hf, itemPieces_cons hf]
      refine ⟨?_, hend⟩
      rw [hlater, h.commentPieces, (h.enter f).gapPieces, (h.enter f).itemCol, hitem]
      simp only [List.map_append]

/-! ## 3. Forms one column deeper -/

/-- What is set behind the opening delimiter of a sequence whose items start at column `w`, and the
column behind it. -/
def behindOpening (layout : Layout) (closing : String) (w : Nat) (items : List (Form Hint)) :
    List Piece × Nat :=
  let walked := itemPieces layout (.start w) items
  let last := walked.2.close layout
  (walked.1 ++ walked.2.commentPieces ++ (if last.gap = .indent then [.indent last.base] else []) ++
    [.text last.col closing], last.col + closing.length)

theorem formPieces_seq_behind (hint : Hint) (b : Bracket) (items : List (Form Hint)) (w : Nat) :
    formPieces (.seq hint b items) w
      = (.text w b.openText ::
          (behindOpening hint.layout b.closeText (w + b.openText.length) items).1,
        (behindOpening hint.layout b.closeText (w + b.openText.length) items).2) := rfl

theorem behindOpening_succ (closing : String) (w : Nat)
    (hled : layout = .list → ∀ f ∈ fs.head?, f.isNewline = false) (hfs : ∀ f ∈ fs, Shifts f) :
    behindOpening layout closing (w + 1) fs
      = ((behindOpening layout closing w fs).1.map Piece.deeper,
        (behindOpening layout closing w fs).2 + 1) := by
  have hhangs : (Cursor.start w).Hangs layout := by simp [Cursor.Hangs, Cursor.start]
  obtain ⟨hpieces, hend⟩ :=
    (Cursor.Deeper.start layout w).items hhangs (fun hlist _ => hled hlist) hfs
  have hclose := hend.close
  have hgap : (if ((itemPieces layout (.start (w + 1)) fs).2.close layout).gap = .indent then
        [Piece.indent ((itemPieces layout (.start (w + 1)) fs).2.close layout).base] else [])
      = (if ((itemPieces layout (.start w) fs).2.close layout).gap = .indent then
        [Piece.indent ((itemPieces layout (.start w) fs).2.close layout).base] else []).map
          Piece.deeper := by
    rw [hclose.gap, hclose.base]
    split <;> rfl
  simp only [behindOpening]
  rw [hpieces, hend.commentPieces, hgap, hclose.col]
  simp [Piece.deeper]
  omega

theorem shifts_atom {x : Atom} (h : '\n' ∉ x.text.toList) (hint : Hint) :
    Shifts (.atom hint x) := by
  intro w
  have hdeeper : (linePiece hint x w).deeper = linePiece hint x (w + 1) := by
    unfold linePiece
    split <;> rfl
  rw [formPieces_atom h, formPieces_atom h, List.map_singleton, hdeeper, Nat.add_right_comm]

/-- Readable forms shift, if no text in them holds a line break. -/
theorem formPieces_succ {inside : Bool} (h : f.Readable inside)
    (hfree : ∀ text ∈ f.freeTexts, '\n' ∉ text.toList) (hled : ∀ g ∈ f.nodes, Led g) :
    Shifts f := by
  induction f using Form.induct generalizing inside with
  | atom hint x =>
    exact shifts_atom (Atom.newline_not_mem_text h (by simpa [Form.freeTexts] using hfree)) hint
  | prefixed hint s body ih =>
    have hbody := ih (Form.readable_prefixed.mp h).2 hfree fun g hg =>
      hled g (Form.mem_nodes_of_body hg)
    intro w
    rw [formPieces_prefixed, formPieces_prefixed, Nat.add_right_comm, hbody]
    rfl
  | seq hint b items ih =>
    have hitems : ∀ f ∈ items, Shifts f := by
      intro g hg
      refine ih g hg ((Form.readable_seq.mp h).2 g hg) (fun text htext => hfree text ?_)
        fun k hk => hled k (Form.mem_nodes_of_mem hg hk)
      rw [Form.freeTexts, Form.Extract.ofForm_seq]
      exact List.mem_flatMap.mpr ⟨g, hg, htext⟩
    have hhead : hint.layout = .list → ∀ f ∈ items.head?, f.isNewline = false := by
      intro hlist f hf
      cases items with
      | nil => simp at hf
      | cons g rest =>
        obtain rfl : g = f := by simpa using hf
        exact hled _ (Form.self_mem_nodes _) hlist
    intro w
    rw [formPieces_seq_behind, formPieces_seq_behind, Nat.add_right_comm,
      behindOpening_succ _ _ hhead hitems]
    rfl

/-! ## 4. Pieces on lines -/

/-- Whether a line begins behind a piece. -/
def Piece.breaks : Piece → Bool
  | newline => true
  | _ => false

/-- A piece that may stand where a line begins, or where it has begun: a line begins with its
indentation, and holds no line break. -/
def Piece.FitsAt (fresh : Bool) : Piece → Prop
  | newline => True
  | indent _ => fresh = true
  | space => fresh = false
  | text _ s => fresh = false ∧ '\n' ∉ s.toList
  | docstring _ d => fresh = false ∧ '\n' ∉ d.first ∧ d.rest = []

/-- Every piece stands where it may. -/
def OnLines : (fresh : Bool) → List Piece → Prop
  | _, [] => True
  | fresh, piece :: pieces => piece.FitsAt fresh ∧ OnLines piece.breaks pieces

/-- Whether a line begins behind some pieces. -/
def freshBehind (fresh : Bool) (pieces : List Piece) : Bool :=
  pieces.foldl (fun _ piece => piece.breaks) fresh

theorem onLines_append :
    OnLines fresh (pieces ++ pieces') ↔
      OnLines fresh pieces ∧ OnLines (freshBehind fresh pieces) pieces' := by
  induction pieces generalizing fresh with
  | nil => simp [OnLines, freshBehind]
  | cons piece pieces ih => simp [OnLines, ih, freshBehind, and_assoc]

theorem freshBehind_append (fresh : Bool) (pieces pieces' : List Piece) :
    freshBehind fresh (pieces ++ pieces') = freshBehind (freshBehind fresh pieces) pieces' :=
  List.foldl_append

/-- The characters of one piece that is set one column deeper. -/
theorem deepen_piece (hc : c ≠ '\n') {piece : Piece} (h : piece.FitsAt fresh)
    (hindent : ∀ width, piece = .indent width → 0 < width) (ds : List Char) :
    deepen c fresh (piece.chars c ++ ds)
      = piece.deeper.chars c ++ deepen c piece.breaks ds := by
  cases piece with
  | newline => rfl
  | space =>
    obtain rfl : fresh = false := h
    rfl
  | text col s =>
    obtain ⟨rfl, hs⟩ := h
    exact deepen_append hs ds
  | docstring col d =>
    obtain ⟨rfl, hfirst, hrest⟩ := h
    refine deepen_append ?_ ds
    simpa [Piece.chars, Docstring.chars, hrest] using hfirst
  | indent width =>
    obtain rfl : fresh = true := h
    obtain ⟨width, rfl⟩ := Nat.exists_eq_succ_of_ne_zero (Nat.ne_of_gt (hindent width rfl))
    have hnone : '\n' ∉ List.replicate width c := fun hmem =>
      hc (List.eq_of_mem_replicate hmem).symm
    simp only [Piece.chars, Piece.deeper, Piece.breaks, List.replicate_succ, List.cons_append]
    rw [deepen, if_neg hc, deepen_append hnone]
    rfl

/-- Pieces one column deeper are the text with deeper lines. -/
theorem spellOut_deeper (hc : c ≠ '\n') (h : OnLines fresh pieces)
    (hindent : ∀ width, .indent width ∈ pieces → 0 < width) :
    spellOut c (pieces.map Piece.deeper) = deepen c fresh (spellOut c pieces) := by
  induction pieces generalizing fresh with
  | nil => rfl
  | cons piece pieces ih =>
    have hlater := ih h.2 fun width hmem => hindent width (List.mem_cons_of_mem _ hmem)
    have hfirst := deepen_piece hc h.1 (fun width heq => hindent width (by simp [heq]))
      (spellOut c pieces)
    rw [List.map_cons, spellOut_cons, spellOut_cons, hlater, hfirst]

/-! ## 5. Forms on lines -/

/-- A form that is set on lines that begin with their indentation, on a line that has begun and
that does not end with it. -/
def SetsOnLines (f : Form Hint) : Prop :=
  ∀ w, OnLines false (formPieces f w).1 ∧ freshBehind false (formPieces f w).1 = false

/-- A line is about to be indented exactly where it begins. -/
def Cursor.At (fresh : Bool) (cur : Cursor) : Prop :=
  cur.gap = .indent ↔ fresh = true

theorem Cursor.At.breakLine (layout : Layout) (cur : Cursor) : (cur.breakLine layout).At true :=
  ⟨fun _ => rfl, fun _ => rfl⟩

theorem onLines_commentPieces (fresh : Bool) (cur : Cursor) :
    OnLines fresh cur.commentPieces ∧
      freshBehind fresh cur.commentPieces = (cur.afterComment || fresh) := by
  unfold Cursor.commentPieces
  cases cur.afterComment <;> simp [OnLines, Piece.FitsAt, freshBehind, Piece.breaks]

/-- The place at which an item is set says whether its line begins there. -/
theorem Cursor.At.enter (h : cur.At fresh) (layout : Layout) (f : Form Hint) :
    (cur.enter layout f).At (cur.afterComment || fresh) := by
  cases hcomment : cur.afterComment with
  | true =>
    obtain ⟨counted, paired, hcount⟩ := (cur.breakLine layout).count_eq layout f
    rw [Cursor.enter, if_pos hcomment, hcount]
    exact ⟨fun _ => rfl, fun _ => rfl⟩
  | false =>
    rw [Cursor.At, Cursor.enter_gap hcomment, Bool.false_or]
    exact h

theorem Cursor.At.close (h : cur.At fresh) (layout : Layout) :
    (cur.close layout).At (cur.afterComment || fresh) := by
  cases hcomment : cur.afterComment with
  | true =>
    rw [Cursor.close, if_pos hcomment]
    exact .breakLine layout cur
  | false =>
    rw [Cursor.close, if_neg (by simp [hcomment])]
    exact h

/-- Behind the gap in front of an item, its line has begun. -/
theorem onLines_gapPieces (h : cur.At fresh) :
    OnLines fresh cur.gapPieces ∧ freshBehind fresh cur.gapPieces = false := by
  unfold Cursor.At at h
  cases hgap : cur.gap with
  | none =>
    have hfresh : fresh = false := by simpa [hgap] using h
    simp [Cursor.gapPieces, hgap, OnLines, freshBehind, hfresh]
  | space =>
    have hfresh : fresh = false := by simpa [hgap] using h
    simp [Cursor.gapPieces, hgap, OnLines, freshBehind, hfresh, Piece.FitsAt, Piece.breaks]
  | indent =>
    have hfresh : fresh = true := by simpa [hgap] using h
    simp [Cursor.gapPieces, hgap, OnLines, freshBehind, hfresh, Piece.FitsAt, Piece.breaks]

theorem onLines_closing (h : cur.At fresh) :
    OnLines fresh (if cur.gap = .indent then [Piece.indent cur.base] else []) ∧
      freshBehind fresh (if cur.gap = .indent then [Piece.indent cur.base] else []) = false := by
  cases fresh with
  | true => simp [h.mpr rfl, OnLines, freshBehind, Piece.FitsAt, Piece.breaks]
  | false =>
    have hgap : cur.gap ≠ .indent := fun hgap => absurd (h.mp hgap) (by decide)
    simp [hgap, OnLines, freshBehind]

/-- Items that are set on lines are, one behind the other. -/
theorem Cursor.At.items (h : cur.At fresh) (layout : Layout) (hfs : ∀ f ∈ fs, SetsOnLines f) :
    OnLines fresh (itemPieces layout cur fs).1 ∧
      (itemPieces layout cur fs).2.At (freshBehind fresh (itemPieces layout cur fs).1) := by
  induction fs generalizing cur fresh with
  | nil => exact ⟨trivial, h⟩
  | cons f fs ih =>
    have hrest := fun g hg => hfs g (List.mem_cons_of_mem _ hg)
    cases hf : f.isNewline with
    | true =>
      obtain ⟨hlater, hend⟩ := @ih (cur.passNewline layout) true ⟨fun _ => rfl, fun _ => rfl⟩ hrest
      rw [itemPieces_newline hf]
      exact ⟨⟨trivial, hlater⟩, hend⟩
    | false =>
      obtain ⟨hcomment, hfresh⟩ := onLines_commentPieces fresh cur
      obtain ⟨hgap, hbegun⟩ := onLines_gapPieces (h.enter layout f)
      obtain ⟨hitem, hstays⟩ := hfs f List.mem_cons_self (cur.enter layout f).itemCol
      have hpast : (cur.past layout f).At false := by simp [Cursor.At]
      obtain ⟨hlater, hend⟩ := ih hpast hrest
      rw [itemPieces_cons hf]
      simp only [onLines_append, freshBehind_append, hfresh, hbegun, hstays]
      exact ⟨⟨⟨⟨hcomment, hgap⟩, hitem⟩, hlater⟩, hend⟩

theorem onLines_behindOpening (layout : Layout) {closing : String}
    (hclosing : '\n' ∉ closing.toList) (w : Nat) (hfs : ∀ f ∈ fs, SetsOnLines f) :
    OnLines false (behindOpening layout closing w fs).1 ∧
      freshBehind false (behindOpening layout closing w fs).1 = false := by
  have hstart : (Cursor.start w).At false := by simp [Cursor.At, Cursor.start]
  obtain ⟨hitems, hend⟩ := hstart.items layout hfs
  obtain ⟨hcomment, hfresh⟩ := onLines_commentPieces
    (freshBehind false (itemPieces layout (.start w) fs).1) (itemPieces layout (.start w) fs).2
  obtain ⟨hgap, hbegun⟩ := onLines_closing (hend.close layout)
  simp only [behindOpening, onLines_append, freshBehind_append, hfresh, hbegun]
  exact ⟨⟨⟨⟨hitems, hcomment⟩, hgap⟩, ⟨rfl, hclosing⟩, trivial⟩, rfl⟩

theorem setsOnLines_atom {x : Atom} (h : '\n' ∉ x.text.toList) (hint : Hint) :
    SetsOnLines (.atom hint x) := by
  intro w
  rw [formPieces_atom h]
  unfold linePiece
  split
  next text _ =>
    have htext : '\n' ∉ text.toList := fun hmem => h (by simp [Atom.text, hmem])
    exact ⟨⟨⟨rfl, htext, rfl⟩, trivial⟩, rfl⟩
  next => exact ⟨⟨⟨rfl, h⟩, trivial⟩, rfl⟩

/-- Readable forms are set on lines that begin with their indentation, if no text in them holds a
line break. -/
theorem onLines_formPieces {inside : Bool} (h : f.Readable inside)
    (hfree : ∀ text ∈ f.freeTexts, '\n' ∉ text.toList) : SetsOnLines f := by
  induction f using Form.induct generalizing inside with
  | atom hint x =>
    exact setsOnLines_atom (Atom.newline_not_mem_text h (by simpa [Form.freeTexts] using hfree))
      hint
  | prefixed hint s body ih =>
    intro w
    obtain ⟨hbody, hstays⟩ := ih (Form.readable_prefixed.mp h).2 hfree (w + s.text.length)
    exact ⟨⟨⟨rfl, s.newline_not_mem_text⟩, hbody⟩, hstays⟩
  | seq hint b items ih =>
    obtain ⟨hb, hreadable⟩ := Form.readable_seq.mp h
    have hitems : ∀ f ∈ items, SetsOnLines f := by
      intro g hg
      refine ih g hg (hreadable g hg) fun text htext => hfree text ?_
      rw [Form.freeTexts, Form.Extract.ofForm_seq]
      exact List.mem_flatMap.mpr ⟨g, hg, htext⟩
    intro w
    obtain ⟨hbehind, hstays⟩ := onLines_behindOpening hint.layout b.newline_not_mem_closeText
      (w + b.openText.length) hitems
    rw [formPieces_seq_behind]
    exact ⟨⟨⟨rfl, Bracket.newline_not_mem_openText hb⟩, hbehind⟩, hstays⟩

/-! ## 6. Lists and function literals -/

/-- A piece one column deeper is no indentation by nothing. -/
theorem indent_pos_of_deeper {width : Nat} (h : .indent width ∈ pieces.map Piece.deeper) :
    0 < width := by
  obtain ⟨piece, -, hpiece⟩ := List.mem_map.mp h
  cases piece with
  | indent n =>
    obtain rfl : n + 1 = width := by simpa [Piece.deeper] using hpiece
    exact Nat.succ_pos n
  | _ => simp [Piece.deeper] at hpiece

/-- A source that is one form is set as that form at the margin. -/
theorem sourcePieces_singleton (hf : f.isNewline = false) :
    sourcePieces [f] = (formPieces f 0).1 := by
  have hgap : ((Cursor.start 0).enter .normal f).gap = .none := Cursor.enter_gap rfl .normal f
  have hcol : ((Cursor.start 0).enter .normal f).itemCol = 0 := by
    obtain ⟨counted, paired, hcount⟩ := (Cursor.start 0).count_eq .normal f
    obtain ⟨base, hreach⟩ := ((Cursor.start 0).count .normal f).reachSecond_eq .normal
    rw [Cursor.itemCol, if_neg (by simp [hgap]), Cursor.enter, if_neg (by simp [Cursor.start]),
      hreach, hcount]
    rfl
  rw [sourcePieces, itemPieces_cons hf, itemPieces_nil, hcol, Cursor.gapPieces, hgap,
    Cursor.commentPieces]
  simp [Cursor.start]

/-- The items of a list are set in a function literal one column deeper, so that it is the text of
the list behind a `#`, with deeper lines. -/
theorem toText_fnLiteral (hc : c ≠ '\n') {inside : Bool} {hint : Hint} {items : List (Form Hint)}
    (hitems : ∀ f ∈ items, f.Readable inside)
    (hfree : ∀ f ∈ items, ∀ text ∈ f.freeTexts, '\n' ∉ text.toList)
    (hled : ∀ g ∈ Form.nodes (.seq hint .fnLiteral items), Led g) :
    toText c (sourcePieces [.seq hint .fnLiteral items])
      = "#" ++ indentLater c (toText c (sourcePieces [.seq hint .list items])) := by
  have hshifts : ∀ f ∈ items, Shifts f := fun f hf =>
    formPieces_succ (hitems f hf) (hfree f hf) fun g hg => hled g (Form.mem_nodes_of_mem hf hg)
  have hhead : hint.layout = .list → ∀ f ∈ items.head?, f.isNewline = false := by
    intro hlist f hf
    cases items with
    | nil => simp at hf
    | cons g rest =>
      obtain rfl : g = f := by simpa using hf
      exact hled _ (Form.self_mem_nodes _) hlist
  have hclosing : '\n' ∉ ")".toList := by decide
  obtain ⟨hlines, -⟩ := onLines_behindOpening hint.layout hclosing 1 fun f hf =>
    onLines_formPieces (hitems f hf) (hfree f hf)
  have hindent : ∀ width, .indent width ∈ (behindOpening hint.layout ")" 1 items).1 →
      0 < width := by
    intro width hmem
    rw [behindOpening_succ ")" 0 hhead hshifts] at hmem
    exact indent_pos_of_deeper hmem
  have hdeeper := spellOut_deeper hc hlines hindent
  have htwo : (behindOpening hint.layout ")" 2 items).1
      = (behindOpening hint.layout ")" 1 items).1.map Piece.deeper :=
    congrArg Prod.fst (behindOpening_succ ")" 1 hhead hshifts)
  have hlist : (toText c (sourcePieces [.seq hint .list items])).toList
      = '(' :: spellOut c (behindOpening hint.layout ")" 1 items).1 := by
    rw [sourcePieces_singleton rfl, formPieces_seq_behind, toText, String.toList_ofList]
    rfl
  have hliteral : (toText c (sourcePieces [.seq hint .fnLiteral items])).toList
      = '#' :: '(' :: spellOut c (behindOpening hint.layout ")" 2 items).1 := by
    rw [sourcePieces_singleton rfl, formPieces_seq_behind, toText, String.toList_ofList]
    rfl
  have hopen : deepen c false ('(' :: spellOut c (behindOpening hint.layout ")" 1 items).1)
      = '(' :: deepen c false (spellOut c (behindOpening hint.layout ")" 1 items).1) := by
    rw [deepen, if_neg (by decide)]
    rfl
  rw [← String.toList_inj, hliteral, String.toList_append, indentLater_toList, hlist, hopen, htwo,
    hdeeper]
  rfl

end Layout

end CljFormat
