/-
CljFormat.Proofs.Form.Spellings — forms as tokens, and which forms have a text.

`Form.spellings` writes a form as the tokens it is made of. It is the middle of the way from forms
to text and back: the layout puts blanks between these tokens, and the reader builds the form out of
them.

Not every form can be written. A symbol with a space in it, a map with three items or a function
literal inside another are forms, but no text is read as one. `Form.Readable` says which forms are:
the text of every atom stands as a token by itself, the items of every map pair up, a sigil is in
front of code, and function literals do not nest. The reader yields readable forms only, and
rearranging line breaks keeps them so.
-/
import CljFormat.Layout.Piece
import CljFormat.Proofs.Form.Bare
import CljFormat.Proofs.Token.Lexeme

namespace CljFormat

open Token (Kind)

variable {α : Type}

/-! ## 1. Tokens of a form -/

/-- The tokens of a sigil. -/
def Sigil.spellings : Sigil → List Spelling
  | deref => [(.atSign, "@")]
  | metadata => [(.circumflex, "^")]
  | quote => [(.apostrophe, "'")]
  | readerDiscard => [(.dispatch .discard, "#_")]
  | readerEval => [(.dispatch .eval, "#=")]
  | syntaxQuote => [(.backtick, "\x60")]
  | unquote => [(.tilde, "~")]
  | unquoteSplice => [(.tilde, "~"), (.atSign, "@")]

/-- The tokens that open a sequence. -/
def Bracket.openSpellings : Bracket → List Spelling
  | fnLiteral => [(.dispatch .fnLiteral, "#("), (.opening .paren, "(")]
  | list => [(.opening .paren, "(")]
  | map none => [(.opening .brace, "\x7b")]
  | map (some ns) => [(.dispatch .namespacedMap, "#:"), (.keyword, ns), (.opening .brace, "\x7b")]
  | readerCond => [(.dispatch .readerCond, "#?"), (.opening .paren, "(")]
  | readerCondSplice => [(.dispatch .readerCondSplice, "#?@"), (.opening .paren, "(")]
  | set => [(.dispatch .set, "#\x7b"), (.opening .brace, "\x7b")]
  | vector => [(.opening .bracket, "[")]

/-- The token that closes a sequence. -/
def Bracket.closeSpelling (b : Bracket) : Spelling :=
  (.closing (Reader.closerOf b), b.closeText)

/-- The tokens of an atom. A tag is written with its `#` and its name side by side, and is whatever
that scans to. -/
def Atom.spellings : Atom → List Spelling
  | bool true => [(.symbol, "true")]
  | bool false => [(.symbol, "false")]
  | character _ text => [(.charLiteral, text)]
  | comment text => [(.comment, text)]
  | keyword text => [(.keyword, text)]
  | newline => [(.newline, "\n")]
  | nil => [(.symbol, "nil")]
  | number text => [(.number, text)]
  | regex text => [(.dispatch .regex, "#\""), (.string, "\"" ++ text ++ "\"")]
  | string text => [(.string, "\"" ++ text ++ "\"")]
  | symbol text => [(.symbol, text)]
  | tag text => (spell ('#' :: text.toList)).1
  | varQuote text => [(.dispatch .varQuote, "#'"), (.symbol, text)]

namespace Form

mutual

/-- The tokens of a form. -/
def spellings : Form α → List Spelling
  | .atom _ x => x.spellings
  | .prefixed _ s body => s.spellings ++ body.spellings
  | .seq _ b items => b.openSpellings ++ spellingsAll items ++ [b.closeSpelling]

/-- The tokens of neighbouring forms. -/
def spellingsAll : List (Form α) → List Spelling
  | [] => []
  | f :: rest => f.spellings ++ spellingsAll rest

end

@[simp] theorem spellingsAll_eq_flatMap (fs : List (Form α)) :
    spellingsAll fs = fs.flatMap spellings := by
  induction fs with
  | nil => rfl
  | cons f rest ih => simp [spellingsAll, ih]

@[simp] theorem spellings_atom (note : α) (x : Atom) :
    spellings (.atom note x) = x.spellings := rfl

@[simp] theorem spellings_prefixed (note : α) (s : Sigil) (body : Form α) :
    spellings (.prefixed note s body) = s.spellings ++ body.spellings := rfl

@[simp] theorem spellings_seq (note : α) (b : Bracket) (items : List (Form α)) :
    spellings (.seq note b items)
      = b.openSpellings ++ items.flatMap spellings ++ [b.closeSpelling] := by
  simp [spellings]

end Form

/-! ## 2. Forms that have a text -/

/-- The text of a string or regular expression, quotes included. -/
def quotedChars (text : String) : List Char := '"' :: text.toList ++ ['"']

/-- The text of an atom is read as that atom. -/
def Atom.Readable : Atom → Prop
  | character value text =>
    Stands .charLiteral text.toList ∧ CharLiteral.decode text.toList.tail = .ok value
  | comment text => Stands .comment text.toList
  | keyword text => Stands .keyword text.toList
  | number text => Stands .number text.toList
  | regex text => Stands .string (quotedChars text)
  | string text => Stands .string (quotedChars text)
  | symbol text =>
    Stands .symbol text.toList ∧ Reader.atomOfSymbol text = .symbol text
  | tag text => Stands .symbol text.toList
  | varQuote text => Stands .symbol text.toList
  | bool _ | newline | nil => True

/-- A bracket may enclose `items`, inside a function literal or not. -/
def Bracket.Encloses (inside : Bool) (items : List (Form α)) : Bracket → Prop
  | fnLiteral => inside = false
  | map namespace? =>
    items.countP Form.isPaired % 2 = 0 ∧ ∀ ns ∈ namespace?, Stands .keyword ns.toList
  | _ => True

/-- Whether what a bracket encloses is inside a function literal. -/
def Bracket.insideOf (inside : Bool) : Bracket → Bool
  | fnLiteral => true
  | _ => inside

namespace Form

mutual

/-- A form is what its tokens are read as, inside a function literal or not. -/
def Readable (inside : Bool) : Form α → Prop
  | .atom _ x => x.Readable
  | .prefixed _ _ body => body.isSemantic = true ∧ body.Readable inside
  | .seq _ b items => b.Encloses inside items ∧ ReadableAll (b.insideOf inside) items

/-- Neighbouring forms are what their tokens are read as. -/
def ReadableAll (inside : Bool) : List (Form α) → Prop
  | [] => True
  | f :: rest => f.Readable inside ∧ ReadableAll inside rest

end

@[simp] theorem readableAll_iff {inside : Bool} {fs : List (Form α)} :
    ReadableAll inside fs ↔ ∀ f ∈ fs, f.Readable inside := by
  induction fs with
  | nil => simp [ReadableAll]
  | cons f rest ih => simp [ReadableAll, ih]

@[simp] theorem readable_atom {inside : Bool} {note : α} {x : Atom} :
    (Form.atom note x).Readable inside ↔ x.Readable := Iff.rfl

@[simp] theorem readable_prefixed {inside : Bool} {note : α} {s : Sigil} {body : Form α} :
    (Form.prefixed note s body).Readable inside ↔
      body.isSemantic = true ∧ body.Readable inside := Iff.rfl

@[simp] theorem readable_seq {inside : Bool} {note : α} {b : Bracket} {items : List (Form α)} :
    (Form.seq note b items).Readable inside ↔
      b.Encloses inside items ∧ ∀ f ∈ items, f.Readable (b.insideOf inside) := by
  simp [Readable]

end Form

@[simp] theorem Bracket.encloses_bare {inside : Bool} {items : List (Form α)} {b : Bracket} :
    b.Encloses inside (items.map Form.bare) ↔ b.Encloses inside items := by
  cases b <;> simp [Bracket.Encloses, List.countP_map, Function.comp_def]

/-- Whether a form is readable does not depend on its annotations. -/
@[simp] theorem Form.readable_bare {f : Form α} {inside : Bool} :
    f.bare.Readable inside ↔ f.Readable inside := by
  induction f using Form.induct generalizing inside with
  | atom note x => simp
  | prefixed note s body ih => simp [ih]
  | seq note b items ih =>
    simp only [bare_seq, readable_seq, Bracket.encloses_bare, List.forall_mem_map]
    constructor
    · rintro ⟨hb, hitems⟩
      exact ⟨hb, fun f hf => (ih f hf).mp (hitems f hf)⟩
    · rintro ⟨hb, hitems⟩
      exact ⟨hb, fun f hf => (ih f hf).mpr (hitems f hf)⟩

/-- What stands below a readable form is readable. -/
theorem readable_of_mem_nodes {inside : Bool} {f g : Form α} (h : f.Readable inside)
    (hg : g ∈ f.nodes) : ∃ inside', g.Readable inside' := by
  induction f using Form.induct generalizing inside with
  | atom note x =>
    obtain rfl := List.mem_singleton.mp hg
    exact ⟨inside, h⟩
  | prefixed note s body ih =>
    rw [Form.nodes_prefixed] at hg
    rcases List.mem_cons.mp hg with rfl | hg
    · exact ⟨inside, h⟩
    · exact ih (Form.readable_prefixed.mp h).2 hg
  | seq note b items ih =>
    rw [Form.nodes_seq] at hg
    rcases List.mem_cons.mp hg with rfl | hg
    · exact ⟨inside, h⟩
    · obtain ⟨f, hf, hg⟩ := List.mem_flatMap.mp hg
      exact ih f hf ((Form.readable_seq.mp h).2 f hf) hg

/-! ## 3. The text of single tokens -/

/-- The text of a sigil is its tokens, whatever follows. -/
theorem Sigil.spells_text (s : Sigil) (rest : List Char) :
    Spells s.text.toList s.spellings rest := by
  cases s
  case unquoteSplice =>
    have hmark : Spells ['~'] [(.tilde, "~")] ('@' :: rest) := .token rfl
    have hat : Spells ['@'] [(.atSign, "@")] rest := .token rfl
    exact hmark.append hat
  all_goals exact .token rfl

/-- The text that closes a sequence is its token, whatever follows. -/
theorem Bracket.spells_closeText (b : Bracket) (rest : List Char) :
    Spells b.closeText.toList [b.closeSpelling] rest := by
  have hparen : Spells [')'] [(.closing .paren, ")")] rest := .token rfl
  have hbrace : Spells ['\x7d'] [(.closing .brace, "\x7d")] rest := .token rfl
  have hbracket : Spells [']'] [(.closing .bracket, "]")] rest := .token rfl
  cases b
  case map ns => exact show Spells "\x7d".toList [(.closing .brace, "\x7d")] rest from hbrace
  case set => exact hbrace
  case vector => exact hbracket
  all_goals exact hparen

/-- The text that opens a sequence is its tokens, whatever follows. -/
theorem Bracket.spells_openText {inside : Bool} {items : List (Form α)} {b : Bracket}
    (h : b.Encloses inside items) (rest : List Char) :
    Spells b.openText.toList b.openSpellings rest := by
  have hparen : ∀ rest, Spells ['('] [(.opening .paren, "(")] rest := fun _ => .token rfl
  have hbrace : ∀ rest, Spells ['\x7b'] [(.opening .brace, "\x7b")] rest := fun _ => .token rfl
  cases b with
  | map namespace? =>
    cases namespace? with
    | none => exact hbrace rest
    | some ns =>
      have hns : Stands .keyword ns.toList := h.2 ns rfl
      obtain ⟨body, hbody⟩ := hns.keyword_head
      have htext : (Bracket.map (some ns)).openText.toList = ['#'] ++ (ns.toList ++ ['\x7b']) := by
        simp [Bracket.openText]
      have hmark : Spells ['#'] [(.dispatch .namespacedMap, "#:")]
          (ns.toList ++ ['\x7b'] ++ rest) := by
        rw [hbody]
        exact .token rfl
      have hends : EndsRun (['\x7b'] ++ rest) := endsRun_cons rfl
      rw [htext]
      exact hmark.append ((hns.spells hends).append (hbrace rest))
  | fnLiteral =>
    have hmark : Spells ['#'] [(.dispatch .fnLiteral, "#(")] ('(' :: rest) := .token rfl
    exact hmark.append (hparen rest)
  | readerCond =>
    have hmark : Spells ['#', '?'] [(.dispatch .readerCond, "#?")] ('(' :: rest) := .token rfl
    exact hmark.append (hparen rest)
  | readerCondSplice =>
    have hmark : Spells ['#', '?', '@'] [(.dispatch .readerCondSplice, "#?@")] ('(' :: rest) :=
      .token rfl
    exact hmark.append (hparen rest)
  | set =>
    have hmark : Spells ['#'] [(.dispatch .set, "#\x7b")] ('\x7b' :: rest) := .token rfl
    exact hmark.append (hbrace rest)
  | list => exact hparen rest
  | vector => exact .token rfl

/-- A tag that is not one token and a symbol when its `#` and its name stand side by side: `# _` is
a tag and `#_` is not. -/
def Atom.Misread : Atom → Prop
  | tag text => ∃ c ∈ text.toList.head?, c ∈ ['_', '=', '?', '!', '<']
  | _ => False

instance : DecidablePred Atom.Misread
  | .tag text =>
    inferInstanceAs (Decidable (∃ c ∈ text.toList.head?, c ∈ ['_', '=', '?', '!', '<']))
  | .bool _ | .character _ _ | .comment _ | .keyword _ | .newline | .nil | .number _ | .regex _
  | .string _ | .symbol _ | .varQuote _ => .isFalse id

/-- A tag, written with its `#` and its name side by side, scans to its end and holds no comment. -/
def Atom.Clear : Atom → Prop
  | tag text =>
    (spell ('#' :: text.toList)).2 = none ∧ ∀ t ∈ (spell ('#' :: text.toList)).1, t.1 ≠ .comment
  | _ => True

instance : DecidablePred Atom.Clear
  | .tag text => inferInstanceAs (Decidable ((spell ('#' :: text.toList)).2 = none ∧
      ∀ t ∈ (spell ('#' :: text.toList)).1, t.1 ≠ .comment))
  | .bool _ | .character _ _ | .comment _ | .keyword _ | .newline | .nil | .number _ | .regex _
  | .string _ | .symbol _ | .varQuote _ => .isTrue trivial

/-- A form that is no tag, or a clear one. -/
def Form.Clear : Form α → Prop
  | .atom _ x => x.Clear
  | _ => True

instance : DecidablePred (Form.Clear (α := α))
  | .atom _ x => inferInstanceAs (Decidable x.Clear)
  | .prefixed _ _ _ | .seq _ _ _ => .isTrue trivial

theorem stands_symbol_of_eq {c : Char} {cs : List Char}
    (h : Lexeme.ofChars c cs = .token .symbol cs []) : Stands .symbol (c :: cs) :=
  (Lexeme.stands_of_ofChars h rfl).2

/-- A `#` in front of most symbols is the mark of a tag. -/
theorem spell_tag {text : String} (h : Stands .symbol text.toList)
    (hmisread : ¬ (Atom.tag text).Misread) :
    spell ('#' :: text.toList) = ([(.octothorpe, "#"), (.symbol, text)], none) := by
  have hname : Spells text.toList [(.symbol, text)] [] := h.spells endsRun_nil
  have hmark : ∀ c ∈ text.toList.head?, c ∉ Lexeme.dispatchMarks := by
    obtain ⟨c, body, htext, hagain⟩ := h
    have hsymbol := Lexeme.not_mem_of_symbol (hagain [] endsRun_nil)
    intro d hd hc
    refine hmisread ⟨d, hd, ?_⟩
    rw [htext, List.head?_cons, Option.mem_def, Option.some.injEq] at hd
    subst hd
    simp only [Lexeme.dispatchMarks, List.mem_cons, List.not_mem_nil, or_false] at hc hsymbol ⊢
    grind
  have hoctothorpe : Spells ['#'] [(.octothorpe, "#")] (text.toList ++ []) := by
    rw [List.append_nil]
    exact .token (Lexeme.dispatch_of_not_mark hmark)
  exact (hoctothorpe.append hname).whole

/-- A tag that is not misread is clear. -/
theorem Atom.clear_of_not_misread {x : Atom} (h : x.Readable) (hmisread : ¬ x.Misread) :
    x.Clear := by
  cases x with
  | tag text =>
    simp only [Atom.Clear, spell_tag h hmisread]
    simp
  | _ => trivial

/-- The text of an atom is its tokens, in front of what breaks a run and, for a comment, a line. -/
theorem Atom.spells_text {x : Atom} {rest : List Char} (h : x.Readable) (hbreak : x ≠ .newline)
    (hclear : x.Clear) (hrest : Breaks rest) (hline : ∀ text, x = .comment text → EndsLine rest) :
    Spells x.text.toList x.spellings rest := by
  have hrun := hrest.endsRun
  cases x with
  | bool value =>
    cases value with
    | true => exact (stands_symbol_of_eq rfl : Stands .symbol "true".toList).spells hrun
    | false => exact (stands_symbol_of_eq rfl : Stands .symbol "false".toList).spells hrun
  | nil => exact (stands_symbol_of_eq rfl : Stands .symbol "nil".toList).spells hrun
  | newline => exact absurd rfl hbreak
  | character value text => exact h.1.spells hrun
  | comment text => exact Stands.spells h (hline text rfl)
  | keyword text => exact Stands.spells h hrun
  | number text => exact Stands.spells h hrun
  | symbol text => exact h.1.spells hrun
  | string text =>
    have hquoted : Stands .string ("\"" ++ text ++ "\"").toList := by
      simpa [quotedChars, Atom.Readable] using h
    exact hquoted.spells trivial
  | regex text =>
    have hquoted : Stands .string ("\"" ++ text ++ "\"").toList := by
      simpa [quotedChars, Atom.Readable] using h
    have htext : (Atom.regex text).text.toList = ['#'] ++ ("\"" ++ text ++ "\"").toList := by
      simp [Atom.text]
    have hmark : Spells ['#'] [(.dispatch .regex, "#\"")]
        (("\"" ++ text ++ "\"").toList ++ rest) := by
      rw [show ("\"" ++ text ++ "\"").toList = '"' :: (text.toList ++ ['"']) by simp]
      exact .token rfl
    rw [htext]
    exact hmark.append (hquoted.spells trivial)
  | tag text =>
    have htext : (Atom.tag text).text.toList = '#' :: text.toList := by simp [Atom.text]
    have hchars : ∀ c ∈ '#' :: text.toList, Text.isSymbolChar c = true := by
      intro c hc
      rcases List.mem_cons.mp hc with rfl | hc
      · decide
      · exact Stands.isSymbolChar h c hc
    rw [htext]
    exact spells_run hchars hrest hclear.1 hclear.2
  | varQuote text =>
    have htext : (Atom.varQuote text).text.toList = ['#', '\''] ++ text.toList := by
      simp [Atom.text]
    have hmark : Spells ['#', '\''] [(.dispatch .varQuote, "#'")] (text.toList ++ rest) :=
      .token rfl
    rw [htext]
    exact hmark.append (Stands.spells h hrun)

end CljFormat
