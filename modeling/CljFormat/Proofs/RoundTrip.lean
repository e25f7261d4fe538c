/-
CljFormat.Proofs.RoundTrip — formatted text is read as the forms it was written for.

The way there goes through tokens. The layout writes the tokens of the settled forms
(`spell_formatForms`), and the reader takes the tokens of readable forms for these forms, so the
text is read as the settled forms (`read_formatForms`). Between the forms of a source and their
settled forms lie the line breaks behind comments and the white space of docstrings, and nothing
else (`comesBack_of_read`).

A source has to be `Faithful` for that: it holds no form that is misread by its tokens, and no
docstring that swallows its closing quote.
-/
import CljFormat.Format
import CljFormat.Proofs.Layout.Plan
import CljFormat.Proofs.Layout.Settle
import CljFormat.Proofs.Reader.Retell
import CljFormat.Proofs.Tree.Rearrange

namespace CljFormat

open Layout (Indents Marks Docstring Fits Hint Realigned settled)

/-! ## 1. Sources that are written as themselves -/

/-- Whether the string `l` is a docstring of a source. -/
def documents (table : IndentTable) (roots : List (Form Label)) (l : Label) : Bool :=
  (Marks.addAll table {} roots).docstrings.contains l.id

/-- No docstring of a source swallows its closing quote. -/
def Closes (table : IndentTable) (roots : List (Form Label)) : Prop :=
  ∀ f ∈ Form.nodesAll roots, documents table roots f.note = true →
    ∀ text ∈ f.shape.string?, ¬ Docstring.Swallows text

/-- No form of a source is misread, and no docstring swallows its closing quote. -/
structure Faithful (table : IndentTable) (roots : List (Form Label)) : Prop where
  spelled : ∀ f ∈ Form.nodesAll roots, ¬ f.Misread
  closes : Closes table roots

instance (table : IndentTable) (roots : List (Form Label)) : Decidable (Closes table roots) :=
  inferInstanceAs (Decidable (∀ f ∈ Form.nodesAll roots, documents table roots f.note = true →
    ∀ text ∈ f.shape.string?, ¬ Docstring.Swallows text))

instance (table : IndentTable) (roots : List (Form Label)) : Decidable (Faithful table roots) :=
  decidable_of_iff ((∀ f ∈ Form.nodesAll roots, ¬ f.Misread) ∧ Closes table roots)
    ⟨fun h => ⟨h.1, h.2⟩, fun h => ⟨h.spelled, h.closes⟩⟩

/-- What the forms of a source come back as: with a line break behind every comment that had none,
the last root apart, and with the lines of docstrings realigned. -/
def ComesBack (table : IndentTable) (roots back : List (Form Label)) : Prop :=
  Form.EchoesAll (fun _ _ => True) (fun l => Realigned (documents table roots l)) false roots back

/-! ## 2. From forms to tokens -/

mutual

/-- A readable form has no line break under a sigil. -/
theorem strayNewline_eq_none {inside : Bool} (f : Form Label) (h : f.Readable inside) :
    f.strayNewline? = none :=
  match f with
  | .atom _ _ => rfl
  | .prefixed _ _ body => by
    obtain ⟨hsem, hbody⟩ := Form.readable_prefixed.mp h
    rw [Form.strayNewline?, (Form.isSemantic_iff.mp hsem).1, if_neg (by simp)]
    exact strayNewline_eq_none body hbody
  | .seq _ _ items => strayNewlineAmong_eq_none items (Form.readable_seq.mp h).2

theorem strayNewlineAmong_eq_none {inside : Bool} (fs : List (Form Label))
    (h : ∀ f ∈ fs, f.Readable inside) : Form.strayNewlineAmong? fs = none :=
  match fs with
  | [] => rfl
  | f :: fs => by
    rw [Form.strayNewlineAmong?, strayNewline_eq_none f (h f List.mem_cons_self),
      strayNewlineAmong_eq_none fs fun g hg => h g (List.mem_cons_of_mem _ hg)]
    rfl

end

/-- The forms of a source, planned. -/
def planned (table : IndentTable) (roots : List (Form Label)) : List (Form Hint) :=
  (Layout.planAll (.ofRoots table roots) {} roots).1

variable {config : Config} {table : IndentTable} {roots : List (Form Label)}

theorem readable_planned {inside : Bool} (h : ∀ f ∈ roots, f.Readable inside) :
    ∀ f ∈ planned table roots, f.Readable inside := by
  intro f hf
  have hbare : (planned table roots).map Form.bare = roots.map Form.bare :=
    Layout.bare_planAll {} roots
  have hmem : f.bare ∈ roots.map Form.bare := hbare ▸ List.mem_map_of_mem hf
  obtain ⟨g, hg, hbare⟩ := List.mem_map.mp hmem
  rw [← Form.readable_bare, ← hbare, Form.readable_bare]
  exact h g hg

theorem fits_planned (hclear : ∀ f ∈ Form.nodesAll roots, f.Clear)
    (hcloses : Closes table roots) : ∀ f ∈ Form.nodesAll (planned table roots), Fits f := by
  intro f hf
  cases f with
  | atom hint x =>
    rw [Form.nodesAll_eq_flatMap] at hf
    obtain ⟨l, hmem, hmarked⟩ := Layout.atom_of_mem_planAll _ _ hf
    rw [← Form.nodesAll_eq_flatMap] at hmem
    refine ⟨hclear (.atom l x) hmem, ?_⟩
    rintro hdoc text rfl
    exact hcloses _ hmem (hmarked.symm.trans hdoc) text rfl
  | _ => trivial

/-- The text of a readable source scans to the tokens of its settled forms. -/
theorem spell_formatForms (hindent : Indents config.indentChar)
    (h : ∀ f ∈ roots, f.Readable false)
    (hclear : ∀ f ∈ Form.nodesAll roots, f.Clear)
    (hcloses : Closes config.table roots) :
    ∃ text, formatForms config roots = .ok text ∧
      spell text.toList
        = ((settled config.indentChar (planned config.table roots)).flatMap Form.spellings,
          none) := by
  refine ⟨Layout.toText config.indentChar (layOut config.table roots), ?_, ?_⟩
  · rw [formatForms, strayNewlineAmong_eq_none roots h]
  · exact Layout.spell_sourcePieces hindent (readable_planned h) (fits_planned hclear hcloses)

/-- A source is formatted by laying out the forms it is read as, once they are rearranged. The edits
of its tree are never refused. -/
theorem format_of_read {source : String} {d : Reader.Document}
    (hread : Reader.read config.options source = .ok d) :
    format config source = formatForms config (Transform.applyAll config.transforms d.roots) := by
  obtain ⟨t, hedited, ht⟩ :=
    Tree.represents_rearrange (Tree.represents_ofDocument hread) config.transforms
  have htree : readTree config source = .ok (.ofDocument d) := by rw [readTree, hread]
  have hrearranged : rearranged config (.ofDocument d) = .ok t := by
    rw [rearranged, hedited]
    rfl
  calc format config source
      = (readTree config source).bind fun t => (rearranged config t).bind (formatTree config) := rfl
    _ = (rearranged config (.ofDocument d)).bind (formatTree config) := by rw [htree]; rfl
    _ = formatTree config t := by rw [hrearranged]; rfl
    _ = formatForms config (Transform.applyAll config.transforms d.roots) := by
      rw [formatTree, Tree.forms_of_represents ht]

/-! ## 3. From tokens to forms -/

variable {α β : Type} {R : α → β → Prop} {A : α → Atom → Atom → Prop}

/-- What comes back is misread only if it was misread before. -/
theorem Form.Echoes.misread {f : Form α} {g : Form β} (h : Form.Echoes R A f g)
    (hA : ∀ l x y, A l x y → x.Alike y) (hg : g.Misread) : f.Misread := by
  cases h with
  | @atom l l' x y _ hatom =>
    rcases hA l x y hatom with rfl | ⟨text, text', rfl, rfl⟩
    · exact hg
    · exact absurd hg (by simp [Form.Misread, Atom.Misread])
  | prefixed s _ hbody =>
    refine ⟨hg.1, ?_⟩
    cases hbody with
    | prefixed s' _ _ => exact hg.2
    | _ => exact absurd hg.2 (by simp [Form.sigil?])
  | seq b _ _ => exact hg

/-- Tags that are not misread are clear. -/
theorem clear_of_not_misread {inside : Bool} {fs : List (Form α)}
    (h : ∀ f ∈ fs, f.Readable inside) (hmisread : ∀ f ∈ Form.nodesAll fs, ¬ f.Misread) :
    ∀ f ∈ Form.nodesAll fs, f.Clear := by
  intro f hf
  cases f with
  | atom l x =>
    have hx := hf
    rw [Form.nodesAll_eq_flatMap] at hx
    obtain ⟨g, hg, hmem⟩ := List.mem_flatMap.mp hx
    obtain ⟨inside', hreadable⟩ := readable_of_mem_nodes (h g hg) hmem
    exact Atom.clear_of_not_misread hreadable (hmisread _ hf)
  | _ => trivial

/-- The settled forms of a source are what it comes back as. -/
theorem comesBack_settled {c : Char} (hindent : Indents c) :
    Form.EchoesAll (fun _ _ => True) (fun l => Realigned (documents table roots l)) false roots
      (settled c (planned table roots)) := by
  have hsettled := Layout.echoesAll_settled (c := c) (planned table roots)
  refine Layout.echoesAll_of_planAll (A := Realigned) _ roots (hsettled.mono (fun _ _ h => h) ?_)
  rintro hint x y ⟨w, rfl⟩
  exact Layout.realigned_settleAtom hindent hint x w

/-- The text of a readable and faithful source is read as its settled forms. -/
theorem read_formatForms (hindent : Indents config.indentChar)
    (h : ∀ f ∈ roots, f.Readable false) (hfaithful : Faithful config.table roots) :
    ∃ text d, formatForms config roots = .ok text ∧
      Reader.read .everything text = .ok d ∧
      d.roots.map Form.bare
        = (settled config.indentChar (planned config.table roots)).map Form.bare := by
  have hclear := clear_of_not_misread h hfaithful.spelled
  obtain ⟨text, htext, hspell⟩ := spell_formatForms hindent h hclear hfaithful.closes
  have hreadable := Layout.readable_settled hindent (readable_planned h)
    (fits_planned hclear hfaithful.closes)
  have hmisread : ∀ g ∈ Form.nodesAll (settled config.indentChar (planned config.table roots)),
      ¬ g.Misread := by
    intro g hg hmisread
    rw [Form.nodesAll_eq_flatMap] at hg
    rcases (comesBack_settled hindent).nodes hg with hbreak | ⟨f, hf, hecho⟩
    · obtain ⟨note, rfl⟩ := Form.eq_newline hbreak
      exact hmisread
    · rw [← Form.nodesAll_eq_flatMap] at hf
      exact hfaithful.spelled f hf (hecho.misread (fun _ _ _ h => h.alike) hmisread)
  obtain ⟨d, hread, hroots⟩ := Reader.read_of_spell hreadable hmisread hspell
  exact ⟨text, d, htext, hread, hroots⟩

/-! ## 4. There and back -/

/-- A source that is read, rearranged and written comes back as the forms that were written, save
for line breaks behind comments and the white space of docstrings. -/
theorem comesBack_of_read {source : String} {d : Reader.Document}
    (hindent : Indents config.indentChar) (hread : Reader.read .everything source = .ok d)
    (hfaithful : Faithful config.table (Transform.applyAll config.transforms d.roots)) :
    ∃ text back, formatForms config (Transform.applyAll config.transforms d.roots) = .ok text ∧
      Reader.read .everything text = .ok back ∧
      ComesBack config.table (Transform.applyAll config.transforms d.roots) back.roots := by
  have hreadable := Transform.readable_applyAll config.transforms (Reader.readable_of_read hread)
  obtain ⟨text, back, htext, hback, hroots⟩ := read_formatForms hindent hreadable hfaithful
  exact ⟨text, back, htext, hback, (comesBack_settled hindent).of_bare hroots⟩

/-- A definition with a docstring whose second line moves, and a comment that a carriage return
ends. -/
theorem comesBack_of_read_definition :
    ∃ d text back,
      Reader.read .everything "(defn f\n\"a\n  b\"\n[x] ;c\rx)" = .ok d ∧
      Faithful {} (Transform.applyAll Transform.all d.roots) ∧
      formatForms { transforms := Transform.all } (Transform.applyAll Transform.all d.roots)
        = .ok text ∧
      Reader.read .everything text = .ok back ∧
      ComesBack {} (Transform.applyAll Transform.all d.roots) back.roots := by
  have hread : ∃ d, Reader.read .everything "(defn f\n\"a\n  b\"\n[x] ;c\rx)" = .ok d ∧
      Faithful {} (Transform.applyAll Transform.all d.roots) := ⟨_, rfl, by decide⟩
  obtain ⟨d, hread, hfaithful⟩ := hread
  obtain ⟨text, back, htext, hback, hcomes⟩ :=
    @comesBack_of_read { transforms := Transform.all } _ _ (.inl rfl) hread hfaithful
  exact ⟨d, text, back, hread, hfaithful, htext, hback, hcomes⟩

end CljFormat
