/-
CljFormat.Proofs.Reader.LineEnds — the line feeds at the end of a source, by its forms.

The line feeds at the end of a source become line breaks, which are forms of their own, but for one
that a character literal may have taken. Nothing that the reader passes over stands there: comments
and line breaks between a sigil and its form are followed by the form. So the forms tell how many
line feeds there are, just as the tokens do (`feeds_of_read`).

Of carriage returns, forms have those in the texts of their atoms and in the namespaces of their
maps, and no more than the source (`returns_of_read`).
-/
import CljFormat.Proofs.Form.Bare
import CljFormat.Proofs.Reader.Derivation
import CljFormat.Proofs.Token.LineEnds

namespace CljFormat

variable {α β : Type}

/-! ## 1. What forms are written with -/

/-- How many line feeds a text ends in with an atom behind it, if it ends in `n`. -/
def Atom.feeds (n : Nat) : Atom → Nat
  | .newline => n + 1
  | .character _ text => Text.feeds 0 text.toList
  | _ => 0

namespace Form

/-- How many line feeds a text ends in with a form behind it, if it ends in `n`. -/
def feeds (n : Nat) : Form α → Nat
  | .atom _ x => x.feeds n
  | .prefixed _ _ body => body.feeds 0
  | .seq _ _ _ => 0

/-- Only a line break counts on. -/
theorem feeds_eq {f : Form α} (h : f.isNewline = false) (n : Nat) : f.feeds n = f.feeds 0 := by
  cases f with
  | atom note x => cases x <;> first | rfl | cases h
  | _ => rfl

@[simp] theorem feeds_bare (n : Nat) (f : Form α) : f.bare.feeds n = f.feeds n := by
  induction f using Form.induct generalizing n with
  | atom note x => rfl
  | prefixed note s body ih => exact ih 0
  | seq note b items ih => rw [bare_seq]; rfl

theorem foldl_feeds_of_bare {fs : List (Form α)} {gs : List (Form β)}
    (h : fs.map bare = gs.map bare) (n : Nat) : fs.foldl feeds n = gs.foldl feeds n := by
  have hbare := congrArg (List.foldl feeds n) h
  simpa only [List.foldl_map, feeds_bare] using hbare

mutual

/-- How many carriage returns a form is written with. -/
def returns : Form α → Nat
  | .atom _ x => x.text.toList.count '\r'
  | .prefixed _ _ body => body.returns
  | .seq _ b items => b.openText.toList.count '\r' + returnsAll items

/-- How many carriage returns neighbouring forms are written with. -/
def returnsAll : List (Form α) → Nat
  | [] => 0
  | f :: rest => f.returns + returnsAll rest

end

mutual

theorem returns_bare : ∀ f : Form α, f.bare.returns = f.returns
  | .atom _ _ => rfl
  | .prefixed _ _ body => returns_bare body
  | .seq _ _ items => by rw [bare_seq, returns, returns, returnsAll_bare items]

theorem returnsAll_bare : ∀ fs : List (Form α), returnsAll (fs.map bare) = returnsAll fs
  | [] => rfl
  | f :: rest => by
    rw [List.map_cons, returnsAll, returnsAll, returns_bare f, returnsAll_bare rest]

end

theorem returnsAll_of_bare {fs : List (Form α)} {gs : List (Form β)}
    (h : fs.map bare = gs.map bare) : returnsAll fs = returnsAll gs := by
  rw [← returnsAll_bare fs, h, returnsAll_bare gs]

end Form

namespace Reader

variable {inside : Bool} {t : Token} {ts : List Token}

/-! ## 2. Line feeds -/

/-- The atom of a symbol is written as the symbol, and leaves no line feed behind it. -/
theorem written_atomOfSymbol (text : String) :
    (atomOfSymbol text).text = text ∧ ∀ n, (atomOfSymbol text).feeds n = 0 := by
  unfold atomOfSymbol
  split
  · next h => exact ⟨h.symm, fun _ => rfl⟩
  · split
    · next h => exact ⟨h.symm, fun _ => rfl⟩
    · split
      · next h => exact ⟨h.symm, fun _ => rfl⟩
      · exact ⟨rfl, fun _ => rfl⟩

theorem feeds_atom {x : Atom} (h : AtomTokens t ts x) (n : Nat) :
    (t :: ts).foldl Token.feeds n = x.feeds n := by
  cases h with
  | symbol ht => simp [Token.feeds, ht, (written_atomOfSymbol t.text).2]
  | newline ht => simp [Token.feeds, ht, Atom.feeds]
  | charLiteral ht _ => simp [Token.feeds, ht, Atom.feeds]
  | keyword ht | number ht | string ht | comment ht => simp [Token.feeds, ht, Atom.feeds]
  | regex _ hu | varQuote _ hu | tag _ hu => simp [Token.feeds, hu, Atom.feeds]

/-- The tokens of a form lead to the number that the form leads to. -/
theorem feeds_of_derives {f : Form Position} (h : Derives inside ts f) (n : Nat) :
    ts.foldl Token.feeds n = f.feeds n := by
  induction f using Form.induct generalizing inside ts n with
  | atom pos x =>
    cases h with
    | atom hatom => exact feeds_atom hatom n
  | prefixed pos s body ih =>
    cases h with
    | prefixed _ _ hbody hsem =>
      rw [List.foldl_append, ih hbody, Form.feeds_eq (Form.isSemantic_iff.mp hsem).1]
      rfl
  | seq pos b items _ =>
    cases h with
    | seq _ _ hclosing _ =>
      rw [List.foldl_concat, Token.feeds, if_neg (by simp [hclosing]), if_neg (by simp [hclosing])]
      rfl

theorem feeds_of_derivesAll {fs : List (Form Position)} (h : DerivesAll inside ts fs) (n : Nat) :
    ts.foldl Token.feeds n = fs.foldl Form.feeds n := by
  induction fs generalizing ts n with
  | nil =>
    cases h
    rfl
  | cons f fs ih =>
    cases h with
    | cons hf hfs => rw [List.foldl_append, feeds_of_derives hf, ih hfs, List.foldl_cons]

theorem map_bare_located (fs : List (Form Label)) :
    (fs.map Form.located).map Form.bare = fs.map Form.bare := by
  rw [List.map_map]
  exact List.map_congr_left fun f _ => Form.bare_located f

/-- The forms of a source tell how many line feeds stand at its end. -/
theorem feeds_of_read {source : String} {d : Document} (h : read .everything source = .ok d) :
    d.roots.foldl Form.feeds 0 = Text.feeds 0 source.toList := by
  obtain ⟨hcomplete, hderives⟩ := derives_of_read h
  rw [← feeds_scan (complete_eq_ok.mp hcomplete).1, feeds_of_derivesAll hderives]
  exact Form.foldl_feeds_of_bare (map_bare_located d.roots).symm 0

/-! ## 3. Carriage returns -/

theorem returns_unquote (text : String) :
    (unquote text).toList.count '\r' ≤ text.toList.count '\r' := by
  rw [unquote, String.toList_ofList]
  exact ((List.dropLast_sublist _).trans (List.tail_sublist _)).count_le _

theorem returns_atom {x : Atom} (h : AtomTokens t ts x) :
    x.text.toList.count '\r' ≤ (charsOf (t :: ts)).count '\r' := by
  cases h with
  | symbol _ => simp [(written_atomOfSymbol t.text).1]
  | newline _ => exact Nat.zero_le _
  | keyword _ | number _ | comment _ | charLiteral _ _ =>
    simp [Atom.text]
  | string _ => simpa [Atom.text] using returns_unquote t.text
  | @regex u _ _ =>
    have hu := returns_unquote u.text
    simp [Atom.text]
    omega
  | varQuote _ _ | tag _ _ => simp [Atom.text]

theorem returns_opening {b : Bracket} (h : OpeningTokens inside t ts b) :
    b.openText.toList.count '\r' ≤ (charsOf (t :: ts)).count '\r' := by
  cases h with
  | namespacedMap _ _ _ => simp [Bracket.openText]; omega
  | _ => exact Nat.zero_le _

mutual

/-- The tokens of a form have its carriage returns. -/
theorem returns_of_derives {inside : Bool} {ts : List Token} {f : Form Position}
    (h : Derives inside ts f) : f.returns ≤ (charsOf ts).count '\r' :=
  match h with
  | .atom hatom => returns_atom hatom
  | .prefixed _ _ hbody _ => by
    rw [Form.returns, charsOf_append, List.count_append]
    exact Nat.le_trans (returns_of_derives hbody) (Nat.le_add_left _ _)
  | .seq hopening hitems _ _ => by
    rw [Form.returns, charsOf_append, charsOf_append, List.count_append, List.count_append]
    exact Nat.le_trans (Nat.add_le_add (returns_opening hopening) (returnsAll_of_derivesAll hitems))
      (Nat.le_add_right _ _)

theorem returnsAll_of_derivesAll {inside : Bool} {ts : List Token} {fs : List (Form Position)}
    (h : DerivesAll inside ts fs) : Form.returnsAll fs ≤ (charsOf ts).count '\r' :=
  match h with
  | .nil => Nat.le_refl 0
  | .cons hf hfs => by
    rw [charsOf_append, List.count_append]
    exact Nat.add_le_add (returns_of_derives hf) (returnsAll_of_derivesAll hfs)

end

/-- The forms of a source have no more carriage returns than the source. -/
theorem returns_of_read {source : String} {d : Document} (h : read .everything source = .ok d) :
    Form.returnsAll d.roots ≤ source.toList.count '\r' := by
  rw [← Form.returnsAll_of_bare (map_bare_located d.roots)]
  exact Nat.le_trans (returnsAll_of_derivesAll (derives_of_read h).2) (returns_scan source)

end Reader

end CljFormat
