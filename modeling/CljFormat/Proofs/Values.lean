/-
CljFormat.Proofs.Values — what formatting does to strings.

A text that is formatted holds the forms of its source in order, with white space between them
(`prints_formatForms`). Every atom stands there with its own text, docstrings apart, and a string is
a docstring only where a definition has it right behind the name, line breaks apart
(`documents_iff`).

So a string that is the value of a definition is never rewritten, but for one that stands in the
place of a docstring: in `(def x "text")` the string is taken for what documents `x`. Then the lines
behind its first one may move (`value_of_format`).
-/
import CljFormat.Proofs.Failure
import CljFormat.Proofs.Independence

namespace CljFormat

open Layout (Hint Docstring Piece Indents Realigned spellOut formPieces itemPieces settleAtom)

variable {α : Type} {c : Char}

/-! ## 1. Texts that hold forms -/

mutual

/-- The characters of a text that holds a form: each of its atoms stands there as one that `A`
relates it to, and only white space stands between. -/
inductive Prints (A : α → Atom → Atom → Prop) : Form α → List Char → Prop
  | atom {l : α} {x y : Atom} : A l x y → Prints A (.atom l x) y.text.toList
  | prefixed {l : α} {s : Sigil} {body : Form α} {cs : List Char} : Prints A body cs →
      Prints A (.prefixed l s body) (s.text.toList ++ cs)
  | seq {l : α} {b : Bracket} {items : List (Form α)} {cs gap : List Char} :
      PrintsAll A items cs → (∀ d ∈ gap, Text.isWhiteSpace d = true) →
      Prints A (.seq l b items) (b.openText.toList ++ cs ++ gap ++ b.closeText.toList)

/-- The characters of a text that holds neighbouring forms. -/
inductive PrintsAll (A : α → Atom → Atom → Prop) : List (Form α) → List Char → Prop
  | nil : PrintsAll A [] []
  | cons {f : Form α} {fs : List (Form α)} {gap cs ds : List Char} :
      (∀ d ∈ gap, Text.isWhiteSpace d = true) → Prints A f cs → PrintsAll A fs ds →
      PrintsAll A (f :: fs) (gap ++ cs ++ ds)

end

namespace Layout

theorem white_commentPieces (cur : Cursor) :
    ∀ d ∈ spellOut c cur.commentPieces, Text.isWhiteSpace d = true := by
  unfold Cursor.commentPieces
  split <;> simp [Piece.chars, Text.isWhiteSpace]

theorem white_indent (hc : Indents c) (n : Nat) :
    ∀ d ∈ spellOut c [.indent n], Text.isWhiteSpace d = true := by
  intro d hd
  have hchars : d ∈ List.replicate n c := by simpa [Piece.chars] using hd
  exact List.eq_of_mem_replicate hchars ▸ hc.white

theorem white_gapPieces (hc : Indents c) (cur : Cursor) :
    ∀ d ∈ spellOut c cur.gapPieces, Text.isWhiteSpace d = true := by
  unfold Cursor.gapPieces
  split
  · simp
  · simp [Piece.chars, Text.isWhiteSpace]
  · exact white_indent hc cur.base

variable {S : Hint → Atom → Atom → Prop}

/-- The text of items holds the items. -/
theorem prints_items (hc : Indents c) (hS : ∀ hint x w, S hint x (settleAtom c hint x w))
    (layout : Layout) {fs : List (Form Hint)}
    (hfs : ∀ f ∈ fs, ∀ w, Prints S f (spellOut c (formPieces f w).1)) (cur : Cursor) :
    PrintsAll S fs (spellOut c (itemPieces layout cur fs).1) := by
  induction fs generalizing cur with
  | nil => exact .nil
  | cons f fs ih =>
    have hlater := ih fun g hg => hfs g (List.mem_cons_of_mem _ hg)
    cases h : f.isNewline with
    | true =>
      obtain ⟨hint, rfl⟩ := Form.eq_newline h
      have hkept : S hint .newline .newline := by
        simpa only [settleAtom_eq_self (show ∀ text, Atom.newline ≠ .string text by simp)]
          using hS hint .newline 0
      have hbreak : ∀ d ∈ ['\n'], Text.isWhiteSpace d = true := by simp [Text.isWhiteSpace]
      rw [itemPieces_newline h]
      exact .cons hbreak (.atom hkept) (hlater _)
    | false =>
      have hgap : ∀ d ∈ spellOut c cur.commentPieces ++ spellOut c (cur.enter layout f).gapPieces,
          Text.isWhiteSpace d = true := by
        intro d hd
        rcases List.mem_append.mp hd with hd | hd
        · exact white_commentPieces cur d hd
        · exact white_gapPieces hc _ d hd
      rw [itemPieces_cons h]
      simp only [spellOut_append]
      exact .cons hgap (hfs f List.mem_cons_self _) (hlater _)

/-- The text of a form holds the form. -/
theorem prints_form (hc : Indents c) (hS : ∀ hint x w, S hint x (settleAtom c hint x w))
    (f : Form Hint) (w : Nat) : Prints S f (spellOut c (formPieces f w).1) := by
  induction f using Form.induct generalizing w with
  | atom hint x =>
    rw [spellOut_atom]
    exact .atom (hS hint x w)
  | prefixed hint s body ih => exact .prefixed (ih _)
  | seq hint b items ih =>
    have hitems := prints_items hc hS hint.layout ih (.start (w + b.openText.length))
    rw [formPieces_seq]
    dsimp only
    generalize itemPieces hint.layout (.start (w + b.openText.length)) items = walked at hitems ⊢
    generalize walked.2.close hint.layout = last
    have hgap : ∀ d ∈ spellOut c walked.2.commentPieces ++
        spellOut c (if last.gap = .indent then [.indent last.base] else []),
        Text.isWhiteSpace d = true := by
      intro d hd
      rcases List.mem_append.mp hd with hd | hd
      · exact white_commentPieces _ d hd
      · split at hd
        · exact white_indent hc last.base d hd
        · simp at hd
    have hseq := Prints.seq (l := hint) (b := b) hitems hgap
    simpa [Piece.chars] using hseq

variable {A : Label → Atom → Atom → Prop} {B : Bool → Atom → Atom → Prop} {ctx : Context}

mutual

/-- A text that holds a plan holds the source, its docstrings being what is marked. -/
theorem prints_of_plan (p : Pending) (f : Form Label) {cs : List Char}
    (hA : ∀ l x y, .atom l x ∈ f.nodes → B (ctx.marks.docstrings.contains l.id) x y → A l x y)
    (h : Prints (fun hint => B hint.docstring) (plan ctx p f).1 cs) : Prints A f cs :=
  match f, h with
  | .atom _ _, .atom hatom => .atom (hA _ _ _ (Form.self_mem_nodes _) hatom)
  | .prefixed _ s body, .prefixed hbody =>
    .prefixed (prints_of_plan p body (fun l x y hx => hA l x y (Form.mem_nodes_of_body hx)) hbody)
  | .seq _ b items, .seq hitems hgap =>
    .seq (printsAll_of_planAll _ items (fun l x y hx => hA l x y (by
      rw [Form.nodes_seq]
      exact List.mem_cons_of_mem _ hx)) hitems) hgap

theorem printsAll_of_planAll (p : Pending) (fs : List (Form Label)) {cs : List Char}
    (hA : ∀ l x y, .atom l x ∈ fs.flatMap Form.nodes →
      B (ctx.marks.docstrings.contains l.id) x y → A l x y)
    (h : PrintsAll (fun hint => B hint.docstring) (planAll ctx p fs).1 cs) : PrintsAll A fs cs :=
  match fs with
  | [] => by
    cases h
    exact .nil
  | f :: fs => by
    simp only [List.flatMap_cons, List.mem_append] at hA
    rw [planAll_cons] at h
    cases h with
    | cons hgap hf hrest =>
      exact .cons hgap (prints_of_plan p f (fun l x y hx => hA l x y (.inl hx)) hf)
        (printsAll_of_planAll _ fs (fun l x y hx => hA l x y (.inr hx)) hrest)

end

end Layout

/-- The text of a readable source holds its forms, with the lines of docstrings realigned. -/
theorem prints_formatForms {config : Config} {roots : List (Form Label)}
    {A : Label → Atom → Atom → Prop} (hindent : Indents config.indentChar)
    (h : ∀ f ∈ roots, f.Readable false)
    (hA : ∀ l x y, .atom l x ∈ Form.nodesAll roots →
      Realigned (documents config.table roots l) x y → A l x y) :
    ∃ text, formatForms config roots = .ok text ∧ PrintsAll A roots text.toList := by
  have hsettled : ∀ (hint : Hint) x w,
      Realigned hint.docstring x (settleAtom config.indentChar hint x w) :=
    Layout.realigned_settleAtom hindent
  refine ⟨Layout.toText config.indentChar (layOut config.table roots), ?_, ?_⟩
  · rw [formatForms, strayNewlineAmong_eq_none roots h]
  · rw [Form.nodesAll_eq_flatMap] at hA
    rw [Layout.toText, String.toList_ofList]
    exact @Layout.printsAll_of_planAll A Realigned (.ofRoots config.table roots) {} roots _ hA
      (Layout.prints_items hindent hsettled .normal
        (fun f _ w => Layout.prints_form hindent hsettled f w) (.start 0))

/-! ## 2. Which strings are docstrings -/

open Layout (Marks docstringForms docstring?)

variable {table : IndentTable} {roots items : List (Form Label)} {f g : Form Label} {i : Nat}

/-- A definition has the string with the identity `i` as its docstring. -/
def DocumentedBy (f : Form Label) (i : Nat) : Prop :=
  ∃ head items, f.call? = some (head, items) ∧ head ∈ docstringForms ∧ docstring? items = some i

theorem contains_addCall (m : Marks) (f : Form Label) :
    (m.addCall table f).docstrings.contains i = true ↔
      m.docstrings.contains i = true ∨ DocumentedBy f i := by
  unfold Marks.addCall DocumentedBy
  cases hcall : f.call? with
  | none => simp
  | some call =>
    obtain ⟨head, items⟩ := call
    by_cases hhead : head ∈ docstringForms
    · simp [hhead, Std.TreeSet.contains_insertMany_list]
    · simp [hhead]

mutual

/-- What is marked behind a form was marked before, or it documents the form or one below it. -/
theorem contains_add (m : Marks) : ∀ f : Form Label,
    (m.add table f).docstrings.contains i = true ↔
      m.docstrings.contains i = true ∨ ∃ g ∈ f.nodes, DocumentedBy g i
  | .atom l x => by simp [Marks.add, DocumentedBy, Form.call?, Form.shape, Shape.list?]
  | .prefixed l s body => by
    have hbody := contains_add m body
    simpa [Marks.add, DocumentedBy, Form.call?, Form.shape, Shape.list?] using hbody
  | .seq l b items => by
    have hitems := contains_addAll (m.addCall table (.seq l b items)) items
    rw [Marks.add, hitems, contains_addCall, Form.nodes_seq]
    simp only [List.exists_mem_cons_iff, or_assoc]

theorem contains_addAll (m : Marks) : ∀ fs : List (Form Label),
    (m.addAll table fs).docstrings.contains i = true ↔
      m.docstrings.contains i = true ∨ ∃ g ∈ fs.flatMap Form.nodes, DocumentedBy g i
  | [] => by simp [Marks.addAll]
  | f :: fs => by
    rw [Marks.addAll, contains_addAll _ fs, contains_add m f, List.flatMap_cons, or_assoc]
    simp only [List.mem_append, or_and_right, exists_or]

end

/-- A string is a docstring if and only if some form of the source is documented by it. -/
theorem documents_iff {l : Label} :
    documents table roots l = true ↔ ∃ f ∈ Form.nodesAll roots, DocumentedBy f l.id := by
  rw [documents, contains_addAll, Form.nodesAll_eq_flatMap]
  simp

/-- A docstring is a string behind the name that is defined, and nothing but line breaks stand
between the two. -/
theorem docstring_cases (h : docstring? items = some i) :
    ∃ head k name breaks l value rest,
      items = head :: .atom k (.symbol name) :: (breaks ++ .atom l (.string value) :: rest) ∧
        (∀ f ∈ breaks, f.isNewline = true) ∧ l.id = i := by
  match items, h with
  | head :: defined :: later, h =>
    obtain ⟨name, hname, h⟩ := Option.bind_eq_some_iff.mp h
    obtain ⟨str, hstr, h⟩ := Option.bind_eq_some_iff.mp h
    obtain ⟨value, hvalue, h⟩ := Option.bind_eq_some_iff.mp h
    obtain rfl : str.note.id = i := by simpa using h
    obtain ⟨k, rfl⟩ := Form.eq_symbol hname
    obtain ⟨l, rfl⟩ := Form.eq_string hvalue
    obtain ⟨rest, hrest⟩ := List.head?_eq_some_iff.mp hstr
    refine ⟨head, k, name, later.takeWhile Form.isNewline, l, value, rest, ?_, ?_, rfl⟩
    · rw [← hrest, List.takeWhile_append_dropWhile]
    · exact fun f hf => List.mem_takeWhile_imp hf

/-! ## 3. Values -/

/-- The code of a list is `def`, a symbol and the string `value`, so that the string is what the
symbol stands for. -/
def BindsString (items : List (Form Label)) (l : Label) (value : String) : Prop :=
  ∃ k k' name, items.filter Form.isSemantic
    = [.atom k (.symbol "def"), .atom k' (.symbol name), .atom l (.string value)]

/-- A string stands in the place of a docstring: `def` is the first item and the name the second,
and nothing but line breaks come between the name and the string. -/
def BehindName (items : List (Form Label)) (l : Label) : Prop :=
  ∃ k k' name breaks value rest,
    items = .atom k (.symbol "def") :: .atom k' (.symbol name) ::
        (breaks ++ .atom l (.string value) :: rest) ∧
      ∀ f ∈ breaks, f.isNewline = true

/-- A string that is the value of a definition becomes itself, unless it stands in the place of a
docstring and has several lines. Then it becomes one with the same lines, white space around those
behind the first apart. -/
def KeepsValue (roots : List (Form Label)) (l : Label) (x y : Atom) : Prop :=
  ∀ k items value, .seq k .list items ∈ Form.nodesAll roots → BindsString items l value →
    x = .string value ∧
      (y = .string value ∨
        BehindName items l ∧ '\n' ∈ value.toList ∧
          ∃ value', y = .string value' ∧ Docstring.SameLines value value')

/-- A text on one line is the only one with its lines. -/
theorem eq_of_sameLines {x y : String} (h : Docstring.SameLines x y) (hx : '\n' ∉ x.toList) :
    y = x := by
  have hpieces : Text.pieces '\n' x.toList = (x.toList, []) := by
    simpa using @Layout.pieces_join x.toList [] hx (by simp)
  obtain ⟨hfirst, hrest⟩ := h
  rw [hpieces] at hfirst hrest
  have hnone : (Text.pieces '\n' y.toList).2 = [] := List.map_eq_nil_iff.mp hrest.symm
  have hjoin := Layout.join_pieces y.toList
  rw [← hfirst, hnone] at hjoin
  exact String.toList_inj.mp (by simpa using hjoin.symm)

theorem BindsString.mem {l : Label} {value : String} (h : BindsString items l value) :
    .atom l (.string value) ∈ items := by
  obtain ⟨k, k', name, hcode⟩ := h
  have hmem : .atom l (.string value) ∈ items.filter Form.isSemantic := by simp [hcode]
  exact List.mem_of_mem_filter hmem

theorem DocumentedBy.part (h : DocumentedBy f i) : ∃ g ∈ f.parts, g.id = i := by
  obtain ⟨head, items, hcall, -, hdocstring⟩ := h
  obtain ⟨first, k, name, breaks, l, value, rest, rfl, -, hid⟩ := docstring_cases hdocstring
  exact ⟨.atom l (.string value), by simp [Layout.parts_of_call hcall], hid⟩

/-- A definition that has its value as its docstring has it in the place of one. -/
theorem BindsString.behindName {k l : Label} {value : String} (h : BindsString items l value)
    (hdoc : DocumentedBy (.seq k .list items) l.id)
    (hids : ∀ f ∈ items, ∀ g ∈ items, f.id = g.id → f = g) : BehindName items l := by
  obtain ⟨head, items', hcall, -, hdocstring⟩ := hdoc
  obtain rfl : items = items' := Layout.parts_of_call hcall
  obtain ⟨first, k', name, breaks, l', value', rest, rfl, hbreaks, hid⟩ :=
    docstring_cases hdocstring
  have hsame : (Form.atom l' (.string value')) = .atom l (.string value) :=
    hids _ (by simp) _ h.mem hid
  obtain ⟨rfl, -⟩ : l' = l ∧ _ := by simpa using hsame
  obtain ⟨j, j', name', hcode⟩ := h
  obtain ⟨_, j'', later, hitems, -⟩ := Form.call?_eq_some_iff.mp hcall
  obtain ⟨rfl, -⟩ := List.cons.inj hitems
  have hfirst : (Form.atom j'' (.symbol head)) = .atom j (.symbol "def") :=
    (List.cons.inj hcode).1
  rw [hfirst]
  exact ⟨j, k', name, breaks, value', rest, rfl, hbreaks⟩

/-- Every atom of a source keeps its value if only its docstrings are realigned. -/
theorem keepsValue_of_realigned {source : String} {d : Reader.Document} {l : Label} {x y : Atom}
    (hread : Reader.read .everything source = .ok d) (hx : .atom l x ∈ Form.nodesAll d.roots)
    (h : Realigned (documents table d.roots l) x y) : KeepsValue d.roots l x y := by
  intro k items value hlist hbinds
  have hids := nodup_ids_of_read hread
  have hitem : ∀ f ∈ items, f ∈ Form.nodesAll d.roots :=
    fun f hf => Form.mem_nodesAll_of_part hlist hf
  have hsame : (Form.atom l x) = .atom l (.string value) :=
    Form.eq_of_id hids hx (hitem _ hbinds.mem) rfl
  obtain rfl : x = .string value := (Form.atom.inj hsame).2
  refine ⟨rfl, ?_⟩
  rcases h with rfl | ⟨hdoc, text, text', htext, rfl, hlines⟩
  · exact .inl rfl
  · obtain rfl := Atom.string.inj htext
    by_cases hline : '\n' ∈ value.toList
    · -- The list that has the string as its docstring can only be the one that the string is in.
      obtain ⟨f, hf, hdocumented⟩ := documents_iff.mp hdoc
      obtain ⟨str, hstr, hid⟩ := hdocumented.part
      obtain rfl : f = .seq k .list items :=
        (Tree.represents_ofDocument hread).eq_of_part hf hlist hstr hbinds.mem hid
      have hbehind := hbinds.behindName hdocumented fun f hf g hg =>
        Form.eq_of_id hids (hitem f hf) (hitem g hg)
      exact .inr ⟨hbehind, hline, text', rfl, hlines⟩
    · exact .inl (congrArg Atom.string (eq_of_sameLines hlines hline))

/-- A formatted text holds the forms of its source in order, each atom with its text, docstrings
apart, and of the string values of definitions only those are changed that stand in the place of a
docstring and have several lines. -/
theorem value_of_format {source text : String} (h : format {} source = .ok text) :
    ∃ d, Reader.read .everything source = .ok d ∧
      PrintsAll (fun l x y => Realigned (documents {} d.roots l) x y ∧ KeepsValue d.roots l x y)
        d.roots text.toList := by
  cases hread : Reader.read .everything source with
  | error cause =>
    have herror := @format_of_read_error {} source cause hread
    rw [herror] at h
    cases h
  | ok d =>
    have hok := @format_of_read {} source d hread
    rw [h, Transform.applyAll_nil] at hok
    obtain ⟨text', htext, hprints⟩ := @prints_formatForms {} d.roots
      (fun l x y => Realigned (documents {} d.roots l) x y ∧ KeepsValue d.roots l x y) (.inl rfl)
      (Reader.readable_of_read hread)
      fun l x y hx hrealigned => ⟨hrealigned, keepsValue_of_realigned hread hx hrealigned⟩
    obtain rfl : text = text' := Except.ok.inj (hok.trans htext)
    exact ⟨d, rfl, hprints⟩

/-- A comment between the name and the string keeps the string from being taken for a docstring. -/
theorem value_of_format_comment :
    format {} "(def x ;c\n\"a\n b\")" = .ok "(def x ;c\n  \"a\n b\")" ∧
      ∃ d, Reader.read .everything "(def x ;c\n\"a\n b\")" = .ok d ∧
        PrintsAll (fun l x y => Realigned (documents {} d.roots l) x y ∧ KeepsValue d.roots l x y)
          d.roots "(def x ;c\n  \"a\n b\")".toList :=
  ⟨rfl, value_of_format rfl⟩

/-- The value of `(def x "text")` is rewritten if it has several lines: what is written is read as a
definition with another value. -/
theorem value_rewritten :
    ∃ d k items l back, Reader.read .everything "(def x \"a\n b\")" = .ok d ∧
      .seq k .list items ∈ Form.nodesAll d.roots ∧ BindsString items l "a\n b" ∧
      format {} "(def x \"a\n b\")" = .ok "(def x \"a\n       b\")" ∧
      Reader.read .everything "(def x \"a\n       b\")" = .ok back ∧
      back.roots.map Form.bare = [.seq () .list [.atom () (.symbol "def"), .atom () (.symbol "x"),
        .atom () (.string "a\n       b")]] := by
  let items : List (Form Label) := [.atom ⟨0, 1, 1, 2⟩ (.symbol "def"),
    .atom ⟨1, 5, 1, 6⟩ (.symbol "x"), .atom ⟨2, 7, 1, 8⟩ (.string "a\n b")]
  have hread : ∃ d, Reader.read .everything "(def x \"a\n b\")" = .ok d ∧
      d.roots = [.seq ⟨3, .start⟩ .list items] := ⟨_, rfl, rfl⟩
  obtain ⟨d, hread, hroots⟩ := hread
  have hmem : .seq ⟨3, .start⟩ .list items ∈ Form.nodesAll d.roots := hroots ▸ List.mem_cons_self
  have hback : ∃ back, Reader.read .everything "(def x \"a\n       b\")" = .ok back ∧
      back.roots.map Form.bare = [.seq () .list [.atom () (.symbol "def"), .atom () (.symbol "x"),
        .atom () (.string "a\n       b")]] := ⟨_, rfl, rfl⟩
  obtain ⟨back, hback, hforms⟩ := hback
  exact ⟨d, ⟨3, .start⟩, items, ⟨2, 7, 1, 8⟩, back, hread, hmem, ⟨_, _, _, rfl⟩, rfl, hback, hforms⟩

end CljFormat
