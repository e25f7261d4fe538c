/-
CljFormat.Proofs.Layout.Trailing — what stands in front of a line break.

Spaces and indentation are put in front of items and closing delimiters, so none of them is ever the
last thing on a line. To say this of a text, each of its pieces needs its part in it (`Part`): the
text of an atom and the two delimiters of a sequence may end a line, and so may a line break, but a
sigil, a space or indentation may not. `castForm` and `castItems` set forms as `formPieces` and
`itemPieces` do, with the part of every piece (`castForm_pieces`).

A line break follows nothing, or a piece that may end a line and is not empty, and the text itself
ends with such a piece (`lineBreak_follows`). The invariant is about the walk along the items of a
sequence: whatever the gap that is still to be filled, what has been written so far may end a line
(`clean_castItems`).
-/
import CljFormat.Proofs.Failure
import CljFormat.Proofs.Layout.Settle
import Mathlib.Data.List.Chain

namespace CljFormat

namespace Layout

/-! ## 1. The parts of pieces -/

/-- What a piece is to the form it is written for, or to the gap between two forms. -/
inductive Part
  /-- The text of an atom. -/
  | own
  /-- The mark in front of a form. -/
  | sigil
  | opening
  | closing
  /-- The space between two items. -/
  | separator
  | indentation
  | lineBreak
deriving DecidableEq, Repr

/-- A piece in its part. -/
abbrev Cast := Part × Piece

/-- What comes before an item. -/
def castGap (c : Cursor) : List Cast :=
  match c.gap with
  | .none => []
  | .space => [(.separator, .space)]
  | .indent => [(.indentation, .indent c.base)]

/-- The line break that a comment before the cursor needs. -/
def castBreak (c : Cursor) : List Cast :=
  if c.afterComment then [(.lineBreak, .newline)] else []

/-- The indentation of a closing delimiter that starts a line. -/
def castMargin (c : Cursor) : List Cast :=
  if c.gap = .indent then [(.indentation, .indent c.base)] else []

mutual

/-- The pieces of a form that is set at column `w`, in their parts. -/
def castForm : Form Hint → (w : Nat) → List Cast
  | .atom hint x, w => (atomPieces hint x w).1.map (Prod.mk .own)
  | .prefixed _ s body, w => (.sigil, .text w s.text) :: castForm body (w + s.text.length)
  | .seq hint b items, w =>
    let c := (itemPieces hint.layout (.start (w + b.openText.length)) items).2
    let last := c.close hint.layout
    (.opening, .text w b.openText) ::
        castItems hint.layout (.start (w + b.openText.length)) items ++ castBreak c ++
      castMargin last ++ [(.closing, .text last.col b.closeText)]

/-- The pieces of the items of a sequence from the cursor on, in their parts. -/
def castItems (layout : Layout) : Cursor → List (Form Hint) → List Cast
  | _, [] => []
  | c, f :: rest =>
    if f.isNewline then (.lineBreak, .newline) :: castItems layout (c.passNewline layout) rest
    else
      castBreak c ++ castGap (c.enter layout f) ++ castForm f (c.enter layout f).itemCol ++
        castItems layout (c.past layout f) rest

end

/-- The pieces of a planned source, in their parts. -/
def castSource (roots : List (Form Hint)) : List Cast :=
  castItems .normal (.start 0) roots

variable {layout : Layout} {c : Cursor} {f : Form Hint} {fs : List (Form Hint)} {inside : Bool}

theorem castItems_newline (h : f.isNewline = true) :
    castItems layout c (f :: fs)
      = (.lineBreak, .newline) :: castItems layout (c.passNewline layout) fs := by
  rw [castItems, if_pos h]

theorem castItems_cons (h : f.isNewline = false) :
    castItems layout c (f :: fs)
      = castBreak c ++ castGap (c.enter layout f) ++ castForm f (c.enter layout f).itemCol ++
        castItems layout (c.past layout f) fs := by
  rw [castItems, if_neg (by simp [h])]

theorem castForm_seq (hint : Hint) (b : Bracket) (items : List (Form Hint)) (w : Nat) :
    castForm (.seq hint b items) w
      = (let c := (itemPieces hint.layout (.start (w + b.openText.length)) items).2
        let last := c.close hint.layout
        (.opening, .text w b.openText) ::
            castItems hint.layout (.start (w + b.openText.length)) items ++ castBreak c ++
          castMargin last ++ [(.closing, .text last.col b.closeText)]) := rfl

/-! ### The parts apart, the pieces are those of the layout -/

theorem castGap_pieces (c : Cursor) : (castGap c).map Prod.snd = c.gapPieces := by
  unfold castGap Cursor.gapPieces
  cases c.gap <;> rfl

theorem castBreak_pieces (c : Cursor) : (castBreak c).map Prod.snd = c.commentPieces := by
  unfold castBreak Cursor.commentPieces
  split <;> rfl

theorem castMargin_pieces (c : Cursor) :
    (castMargin c).map Prod.snd = if c.gap = .indent then [.indent c.base] else [] := by
  unfold castMargin
  split <;> rfl

theorem castItems_pieces (h : ∀ f ∈ fs, ∀ w, (castForm f w).map Prod.snd = (formPieces f w).1)
    (layout : Layout) (c : Cursor) :
    (castItems layout c fs).map Prod.snd = (itemPieces layout c fs).1 := by
  induction fs generalizing c with
  | nil => rfl
  | cons f fs ih =>
    have hlater := ih fun g hg => h g (List.mem_cons_of_mem _ hg)
    cases hf : f.isNewline with
    | true =>
      rw [castItems_newline hf, itemPieces_newline hf, List.map_cons, hlater]
    | false =>
      rw [castItems_cons hf, itemPieces_cons hf]
      simp only [List.map_append, castBreak_pieces, castGap_pieces, h f List.mem_cons_self, hlater]

theorem castForm_pieces (f : Form Hint) (w : Nat) :
    (castForm f w).map Prod.snd = (formPieces f w).1 := by
  induction f using Form.induct generalizing w with
  | atom hint x => simp [castForm, formPieces, Function.comp_def]
  | prefixed hint s body ih => rw [castForm, List.map_cons, ih, formPieces_prefixed]
  | seq hint b items ih =>
    rw [castForm_seq, formPieces_seq]
    simp only [List.map_append, List.map_cons, List.map_nil, castItems_pieces ih, castBreak_pieces,
      castMargin_pieces]

theorem castSource_pieces (roots : List (Form Hint)) :
    (castSource roots).map Prod.snd = sourcePieces roots :=
  castItems_pieces (fun f _ => castForm_pieces f) .normal (.start 0)

/-! ## 2. What may end a line -/

/-- A piece with characters of its own at its end: the text of an atom, a delimiter or a line
break. -/
def Cast.EndsLine : Cast → Prop
  | (.own, .text _ s) | (.opening, .text _ s) | (.closing, .text _ s) => s ≠ ""
  | (.own, .docstring _ _) => True
  | (.lineBreak, .newline) => True
  | _ => False

/-- Only what may end a line stands in front of a line break. -/
def Cast.MayPrecede (p q : Cast) : Prop :=
  q.2 = .newline → p.EndsLine

/-- Pieces in which only what may end a line stands in front of a line break or at the end. -/
structure Clean (ps : List Cast) : Prop where
  chain : ps.IsChain Cast.MayPrecede
  last : ∀ p ∈ ps.getLast?, p.EndsLine

/-- Clean pieces that do not start with a line break. -/
structure Solid (ps : List Cast) : Prop extends Clean ps where
  first : ∃ p ∈ ps.head?, p.2 ≠ .newline

variable {ps qs : List Cast} {p : Cast}

theorem clean_nil : Clean [] := ⟨.nil, by simp⟩

/-- One piece that may end a line and breaks none. -/
theorem solid_singleton (h : p.EndsLine) (hp : p.2 ≠ .newline) : Solid [p] where
  chain := .singleton p
  last := by simpa using h
  first := ⟨p, rfl, hp⟩

/-- Where nothing breaks a line, anything goes. -/
theorem isChain_of_unbroken (h : ∀ q ∈ qs, q.2 ≠ .newline) : qs.IsChain Cast.MayPrecede := by
  induction qs with
  | nil => exact .nil
  | cons q qs ih =>
    rw [List.forall_mem_cons] at h
    exact (ih h.2).cons fun p hp hbreak => absurd hbreak (h.2 p (List.mem_of_mem_head? hp))

/-- Pieces that break no line may follow any others. -/
theorem isChain_append_unbroken (h : ps.IsChain Cast.MayPrecede)
    (hqs : ∀ q ∈ qs, q.2 ≠ .newline) : (ps ++ qs).IsChain Cast.MayPrecede :=
  h.append (isChain_of_unbroken hqs) fun _ _ q hq hbreak =>
    absurd hbreak (hqs q (List.mem_of_mem_head? hq))

/-- Solid pieces leave clean whatever they follow. -/
theorem clean_append_solid (h : ps.IsChain Cast.MayPrecede) (hqs : Solid qs) :
    Clean (ps ++ qs) := by
  obtain ⟨first, hfirst, hne⟩ := hqs.first
  obtain ⟨last, hlast⟩ := Option.isSome_iff_exists.mp
    (List.getLast?_isSome.mpr (List.ne_nil_of_mem (List.mem_of_mem_head? hfirst)))
  refine ⟨h.append hqs.chain fun p _ q hq hbreak => ?_, fun p hp => hqs.last p ?_⟩
  · rw [Option.mem_unique hq hfirst] at hbreak
    exact absurd hbreak hne
  · rwa [List.getLast?_append, hlast, Option.some_or, ← hlast] at hp

theorem Clean.append_lineBreak (h : Clean ps) : Clean (ps ++ [(.lineBreak, .newline)]) where
  chain := h.chain.append (.singleton _) fun p hp _ _ _ => h.last p hp
  last := by simp [Cast.EndsLine]

theorem Clean.append_castBreak (h : Clean ps) (c : Cursor) : Clean (ps ++ castBreak c) := by
  unfold castBreak
  split
  · exact h.append_lineBreak
  · rwa [List.append_nil]

theorem unbroken_castGap (c : Cursor) : ∀ q ∈ castGap c, q.2 ≠ .newline := by
  unfold castGap
  cases c.gap <;> simp

theorem unbroken_castMargin (c : Cursor) : ∀ q ∈ castMargin c, q.2 ≠ .newline := by
  unfold castMargin
  split <;> simp

/-! ## 3. Forms -/

end Layout

/-- The text of a readable atom is not empty. -/
theorem Atom.text_ne_empty {x : Atom} (h : x.Readable) (hbreak : x ≠ .newline) : x.text ≠ "" := by
  have hstands : ∀ {kind : Token.Kind} {text : String}, Stands kind text.toList → text ≠ "" := by
    rintro kind text ⟨c, body, htext, -⟩ rfl
    simp at htext
  cases x with
  | newline => exact absurd rfl hbreak
  | bool value => cases value <;> decide
  | nil => decide
  | character value text => exact hstands h.1
  | symbol text => exact hstands h.1
  | comment text | keyword text | number text => exact hstands h
  | regex text | string text | tag text | varQuote text => simp [Atom.text]

theorem Bracket.openText_ne_empty (b : Bracket) : b.openText ≠ "" := by
  cases b with
  | map namespace? => cases namespace? <;> simp [Bracket.openText]
  | _ => decide

theorem Bracket.closeText_ne_empty (b : Bracket) : b.closeText ≠ "" := by
  cases b <;> simp [Bracket.closeText]

namespace Layout

theorem solid_atom {x : Atom} (h : x.Readable) (hbreak : x ≠ .newline) (hint : Hint) (w : Nat) :
    Solid (castForm (.atom hint x) w) := by
  rw [castForm]
  unfold atomPieces
  split
  · exact solid_singleton trivial (by simp)
  · exact solid_singleton (Atom.text_ne_empty h hbreak) (by simp)

/-- Items leave clean what they follow, whatever the gap in front of the first of them. -/
theorem clean_castItems (hfs : ∀ f ∈ fs, f.isNewline = false → ∀ w, Solid (castForm f w))
    (h : Clean ps) (c : Cursor) : Clean (ps ++ castItems layout c fs) := by
  induction fs generalizing ps c with
  | nil => rwa [castItems, List.append_nil]
  | cons f fs ih =>
    have hlater := fun {ps} => @ih ps fun g hg => hfs g (List.mem_cons_of_mem _ hg)
    cases hf : f.isNewline with
    | true =>
      rw [castItems_newline hf, List.append_cons]
      exact hlater h.append_lineBreak _
    | false =>
      have hgap := isChain_append_unbroken (h.append_castBreak c).chain
        (unbroken_castGap (c.enter layout f))
      have hitem := clean_append_solid hgap
        (hfs f List.mem_cons_self hf (c.enter layout f).itemCol)
      rw [castItems_cons hf]
      simpa only [List.append_assoc] using hlater hitem (c.past layout f)

/-- A readable form starts and ends with a text of its own. -/
theorem solid_castForm (h : f.Readable inside) (hbreak : f.isNewline = false) (w : Nat) :
    Solid (castForm f w) := by
  induction f using Form.induct generalizing inside w with
  | atom hint x => exact solid_atom h (by rintro rfl; cases hbreak) hint w
  | prefixed hint s body ih =>
    obtain ⟨hsem, hbody⟩ := Form.readable_prefixed.mp h
    have hsigil : [(Part.sigil, Piece.text w s.text)].IsChain Cast.MayPrecede := .singleton _
    have hclean := clean_append_solid hsigil
      (ih hbody (Form.isSemantic_iff.mp hsem).1 (w + s.text.length))
    exact ⟨hclean, _, rfl, by simp⟩
  | seq hint b items ih =>
    have hopening : Solid [(Part.opening, Piece.text w b.openText)] :=
      solid_singleton b.openText_ne_empty (by simp)
    have hitems : Clean ((.opening, .text w b.openText) ::
        castItems hint.layout (.start (w + b.openText.length)) items) :=
      clean_castItems (fun f hf hbreak => ih f hf ((Form.readable_seq.mp h).2 f hf) hbreak)
        hopening.toClean (.start (w + b.openText.length))
    rw [castForm_seq]
    set c := (itemPieces hint.layout (.start (w + b.openText.length)) items).2
    have hmargin := isChain_append_unbroken (hitems.append_castBreak c).chain
      (unbroken_castMargin (c.close hint.layout))
    have hclosing : Solid [(Part.closing, Piece.text (c.close hint.layout).col b.closeText)] :=
      solid_singleton b.closeText_ne_empty (by simp)
    exact ⟨clean_append_solid hmargin hclosing, _, rfl, by simp⟩

theorem clean_castSource (h : ∀ f ∈ fs, f.Readable inside) : Clean (castSource fs) :=
  clean_castItems (fun f hf hbreak => solid_castForm (h f hf) hbreak) clean_nil (.start 0)

/-- Of clean pieces, the one in front of a line break may end a line. -/
theorem Clean.endsLine (h : Clean ps) {before after : List Cast} {last next : Cast}
    (hps : ps = before ++ last :: next :: after) (hnext : next.2 = .newline) : last.EndsLine := by
  have hchain := h.chain
  rw [hps, List.isChain_append] at hchain
  exact hchain.2.1.rel_head? rfl hnext

end Layout

/-! ## 4. Sources -/

open Layout (Cast castSource)

/-- Formatting writes the pieces of the planned source. A line break among them, and the end of the
text, comes at the very start or directly behind another line break, the text of an atom or a
delimiter, none of which is empty. No space, no indentation and no sigil stands there. -/
theorem lineBreak_follows {config : Config} {source : String} {d : Reader.Document}
    (hread : Reader.read config.options source = .ok d) :
    let pieces := castSource (planned config.table (Transform.applyAll config.transforms d.roots))
    format config source = .ok (Layout.toText config.indentChar (pieces.map Prod.snd)) ∧
      (∀ before last next after, pieces = before ++ last :: next :: after →
        next.2 = .newline → last.EndsLine) ∧
      ∀ before last, pieces = before ++ [last] → last.EndsLine := by
  intro pieces
  have hreadable := Transform.readable_applyAll config.transforms (Reader.readable_of_read hread)
  have hclean : Layout.Clean pieces := Layout.clean_castSource (readable_planned hreadable)
  refine ⟨?_, fun before last next after => hclean.endsLine, fun before last hlast => ?_⟩
  · rw [format_of_read_ok hread, Layout.castSource_pieces]
    rfl
  · exact hclean.last last (by simp [hlast])

/-- A definition with a comment, an empty line and a docstring, whose closing delimiter starts a
line. -/
theorem lineBreak_follows_comment :
    ∃ d, Reader.read .everything "(def x ;c\n\n  \"s\n\"\n)" = .ok d ∧
      format {} "(def x ;c\n\n  \"s\n\"\n)" = .ok "(def x ;c\n\n  \"s\n\"\n  )" ∧
      (∀ before last next after, castSource (planned {} d.roots) = before ++ last :: next :: after →
        next.2 = .newline → last.EndsLine) ∧
      ∀ before last, castSource (planned {} d.roots) = before ++ [last] → last.EndsLine := by
  have hread : ∃ d, Reader.read .everything "(def x ;c\n\n  \"s\n\"\n)" = .ok d := ⟨_, rfl⟩
  obtain ⟨d, hread⟩ := hread
  have hfollows := @lineBreak_follows {} _ d hread
  rw [Transform.applyAll_nil] at hfollows
  exact ⟨d, hread, rfl, hfollows.2.1, hfollows.2.2⟩

/-- An opening delimiter keeps the line break behind it, so the text of an atom, a closing delimiter
and another line break are not all that a line break follows. -/
theorem lineBreak_follows_opening :
    format {} "(\na)" = .ok "(\n a)" ∧
      ¬ ∀ (config : Config) (source : String) (d : Reader.Document),
        Reader.read config.options source = .ok d → ∀ before last next after,
          castSource (planned config.table (Transform.applyAll config.transforms d.roots))
            = before ++ last :: next :: after →
          next.2 = .newline → last.1 ∈ [Layout.Part.own, .closing, .lineBreak] := by
  refine ⟨rfl, fun h => ?_⟩
  have hlast := h {} "(\na)" _ rfl [] (.opening, .text 0 "(") (.lineBreak, .newline) _ rfl rfl
  revert hlast
  decide

end CljFormat
