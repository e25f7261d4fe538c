/-
CljFormat.Proofs.Layout.IndentChar — what the character that indents changes.

Nothing is measured in the character that indents: the pieces of a source are laid out before any
indentation is spelled, and the lines of a docstring are set by counting columns. So two settings
that indent with different characters write the same pieces, each of them with as many characters as
the other, and where these differ both indent (`differOnly_toText`).
-/
import CljFormat.Proofs.Failure
import Mathlib.Data.List.Forall2

namespace CljFormat

open List (Forall₂)

variable {c₁ c₂ : Char}

/-! ## 1. Texts that differ in one character -/

/-- Two texts as long as each other, which differ only where the first has `c₁` and the second
`c₂`. -/
def DifferOnly (c₁ c₂ : Char) (s t : List Char) : Prop :=
  Forall₂ (fun a b => a = b ∨ a = c₁ ∧ b = c₂) s t

theorem DifferOnly.refl (s : List Char) : DifferOnly c₁ c₂ s s :=
  List.forall₂_same.mpr fun _ _ => .inl rfl

theorem DifferOnly.append {s s' t t' : List Char} (h : DifferOnly c₁ c₂ s t)
    (h' : DifferOnly c₁ c₂ s' t') : DifferOnly c₁ c₂ (s ++ s') (t ++ t') :=
  List.rel_append h h'

theorem differOnly_replicate (n : Nat) :
    DifferOnly c₁ c₂ (List.replicate n c₁) (List.replicate n c₂) := by
  induction n with
  | zero => exact .nil
  | succ n ih => exact .cons (.inr ⟨rfl, rfl⟩) ih

theorem differOnly_flatMap {α : Type} {f g : α → List Char}
    (h : ∀ x, DifferOnly c₁ c₂ (f x) (g x)) (xs : List α) :
    DifferOnly c₁ c₂ (xs.flatMap f) (xs.flatMap g) := by
  induction xs with
  | nil => exact .nil
  | cons x xs ih => exact (h x).append ih

/-- Place by place, two characters that differ are `c₁` and `c₂`. -/
theorem DifferOnly.getElem? {s t : List Char} (h : DifferOnly c₁ c₂ s t) {i : Nat} {a b : Char}
    (ha : s[i]? = some a) (hb : t[i]? = some b) (hne : a ≠ b) : a = c₁ ∧ b = c₂ := by
  obtain ⟨hs, rfl⟩ := List.getElem?_eq_some_iff.mp ha
  obtain ⟨ht, rfl⟩ := List.getElem?_eq_some_iff.mp hb
  exact (h.get hs ht).resolve_left hne

/-! ## 2. Pieces -/

namespace Layout

/-- The lines of a docstring are indented by columns, whatever they are indented with. -/
theorem differOnly_docstring (d : Docstring) : DifferOnly c₁ c₂ (d.chars c₁) (d.chars c₂) := by
  have hline : ∀ line : DocLine,
      DifferOnly c₁ c₂ ('\n' :: (List.replicate line.indent c₁ ++ line.text))
        ('\n' :: (List.replicate line.indent c₂ ++ line.text)) := fun line =>
    .cons (.inl rfl) ((differOnly_replicate line.indent).append (.refl line.text))
  exact (DifferOnly.refl d.first).append (differOnly_flatMap hline d.rest)

theorem differOnly_piece (piece : Piece) :
    DifferOnly c₁ c₂ (piece.chars c₁) (piece.chars c₂) := by
  cases piece with
  | text col s => exact .refl s.toList
  | docstring col d => exact .cons (.inl rfl) ((differOnly_docstring d).append (.refl ['"']))
  | space => exact .refl [' ']
  | newline => exact .refl ['\n']
  | indent width => exact differOnly_replicate width

/-- The same pieces, indented with `c₁` and with `c₂`. -/
theorem differOnly_toText (pieces : List Piece) :
    DifferOnly c₁ c₂ (toText c₁ pieces).toList (toText c₂ pieces).toList := by
  rw [toText, toText, String.toList_ofList, String.toList_ofList]
  exact differOnly_flatMap differOnly_piece pieces

end Layout

/-! ## 3. Sources -/

/-- A source that is formatted with `c₁` and with `c₂` for indentation, all other settings the
same, gives texts of the same length, and where these differ the first has `c₁` and the second
`c₂`. -/
theorem format_indentChar {config : Config} {source : String} {d : Reader.Document}
    (hread : Reader.read config.options source = .ok d) (c₁ c₂ : Char) :
    ∃ text₁ text₂, format { config with indentChar := c₁ } source = .ok text₁ ∧
      format { config with indentChar := c₂ } source = .ok text₂ ∧
      text₁.length = text₂.length ∧
      ∀ (i : Nat) (a b : Char), text₁.toList[i]? = some a → text₂.toList[i]? = some b → a ≠ b →
        a = c₁ ∧ b = c₂ := by
  have hformat : ∀ c, format { config with indentChar := c } source
      = .ok (Layout.toText c
          (layOut config.table (Transform.applyAll config.transforms d.roots))) := fun c =>
    @format_of_read_ok { config with indentChar := c } source d hread
  have hdiffer := @Layout.differOnly_toText c₁ c₂
    (layOut config.table (Transform.applyAll config.transforms d.roots))
  refine ⟨_, _, hformat c₁, hformat c₂, ?_, fun i a b => hdiffer.getElem?⟩
  rw [← String.length_toList, ← String.length_toList]
  exact hdiffer.length_eq

/-- A definition that is indented with tabs and with dots, its docstring too: the two spaces by
which the docstring's second line is deeper than its quote are the same in both texts. -/
theorem format_indentChar_docstring :
    ∃ text₁ text₂,
      format { indentChar := '\t' } "(def x\n\"a\n    b\"\ny)" = .ok text₁ ∧
      format { indentChar := '.' } "(def x\n\"a\n    b\"\ny)" = .ok text₂ ∧
      text₁.length = text₂.length ∧
      (∀ (i : Nat) (a b : Char), text₁.toList[i]? = some a → text₂.toList[i]? = some b → a ≠ b →
        a = '\t' ∧ b = '.') ∧
      text₁ = "(def x\n\t\t\"a\n\t\t  b\"\n\t\ty)" ∧ text₂ = "(def x\n..\"a\n..  b\"\n..y)" := by
  have hread : ∃ d, Reader.read .everything "(def x\n\"a\n    b\"\ny)" = .ok d := ⟨_, rfl⟩
  obtain ⟨d, hread⟩ := hread
  obtain ⟨text₁, text₂, htext₁, htext₂, hlength, hchars⟩ := @format_indentChar {} _ d hread '\t' '.'
  have htab : format { indentChar := '\t' } "(def x\n\"a\n    b\"\ny)"
      = .ok "(def x\n\t\t\"a\n\t\t  b\"\n\t\ty)" := rfl
  have hdot : format { indentChar := '.' } "(def x\n\"a\n    b\"\ny)"
      = .ok "(def x\n..\"a\n..  b\"\n..y)" := rfl
  exact ⟨text₁, text₂, htext₁, htext₂, hlength, hchars, Except.ok.inj (htext₁.symm.trans htab),
    Except.ok.inj (htext₂.symm.trans hdot)⟩

end CljFormat
