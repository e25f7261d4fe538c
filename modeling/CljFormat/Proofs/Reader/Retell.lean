/-
CljFormat.Proofs.Reader.Retell — a form's tokens are read as the form.

The tokens of a readable form are derived as that form (`derives_of_readable`). The proof follows
the form, one table of the grammar for each kind of form, and says nothing of the reader: that the
reader takes what is derived is known (`read_of_derives`), and so a text is read as the readable
forms whose tokens it scans to (`read_of_spell`).

Two forms are left out (`Form.Misread`). A tag such as `_x` is `#_x` when it is written, which
discards; and an unquote of a dereference is written `~@`, which is one sigil and not two.
-/
import CljFormat.Proofs.Form.Spellings
import CljFormat.Proofs.Reader.Derivation

namespace CljFormat

/-- The sigil in front of a form. -/
def Form.sigil? {α : Type} : Form α → Option Sigil
  | .prefixed _ s _ => some s
  | _ => none

/-- A form whose tokens are read as another form. -/
def Form.Misread {α : Type} : Form α → Prop
  | .atom _ x => x.Misread
  | .prefixed _ s body => s = .unquote ∧ body.sigil? = some .deref
  | .seq _ _ _ => False

instance {α : Type} : DecidablePred (Form.Misread (α := α))
  | .atom _ x => inferInstanceAs (Decidable x.Misread)
  | .prefixed _ s body => inferInstanceAs (Decidable (s = .unquote ∧ body.sigil? = some .deref))
  | .seq _ _ _ => .isFalse id

namespace Reader

open Token (Kind)

variable {α : Type} {inside : Bool} {t : Token} {ts : List Token}

/-! ## 1. Tokens with a given spelling -/

theorem spelling_eq {kind : Kind} {text : String} :
    t.spelling = (kind, text) ↔ t.kind = kind ∧ t.text = text := by
  simp [Token.spelling]

/-- Tokens that are spelled as one and then others. -/
theorem eq_cons_of_spelling {kind : Kind} {text : String} {ss : List Spelling}
    (h : ts.map Token.spelling = (kind, text) :: ss) :
    ∃ t us, ts = t :: us ∧ t.kind = kind ∧ t.text = text ∧ us.map Token.spelling = ss := by
  match ts, h with
  | t :: us, h =>
    rw [List.map_cons, List.cons.injEq] at h
    obtain ⟨hkind, htext⟩ := spelling_eq.mp h.1
    exact ⟨t, us, rfl, hkind, htext, h.2⟩

/-- Tokens that are spelled as one. -/
theorem eq_of_spelling {kind : Kind} {text : String}
    (h : ts.map Token.spelling = [(kind, text)]) :
    ∃ t, ts = [t] ∧ t.kind = kind ∧ t.text = text := by
  obtain ⟨t, us, rfl, hkind, htext, hus⟩ := eq_cons_of_spelling h
  obtain rfl : us = [] := List.map_eq_nil_iff.mp hus
  exact ⟨t, rfl, hkind, htext⟩

/-- What holds of every token with a spelling holds of the one that is spelled so. -/
theorem single_of_spelling {P : Token → List Token → Prop} {kind : Kind} {text : String}
    (hts : ts.map Token.spelling = [(kind, text)])
    (h : ∀ t : Token, t.kind = kind → t.text = text → P t []) :
    ∃ t us, ts = t :: us ∧ P t us := by
  obtain ⟨t, rfl, ht, htext⟩ := eq_of_spelling hts
  exact ⟨t, [], rfl, h t ht htext⟩

/-- What holds of every two tokens with two spellings holds of those that are spelled so. -/
theorem pair_of_spelling {P : Token → List Token → Prop} {kind kind' : Kind}
    {text text' : String} (hts : ts.map Token.spelling = [(kind, text), (kind', text')])
    (h : ∀ t u : Token, t.kind = kind → u.kind = kind' → u.text = text' → P t [u]) :
    ∃ t us, ts = t :: us ∧ P t us := by
  obtain ⟨t, us, rfl, ht, -, hus⟩ := eq_cons_of_spelling hts
  obtain ⟨u, rfl, hu, htext⟩ := eq_of_spelling hus
  exact ⟨t, [u], rfl, h t u ht hu htext⟩

theorem unquote_quoted (text : String) : unquote ("\"" ++ text ++ "\"") = text := by
  simp [unquote]

/-! ## 2. Atoms -/

/-- The tokens of a readable atom are that atom. -/
theorem atomTokens_of_readable {x : Atom} (h : x.Readable) (hmisread : ¬ x.Misread)
    (hts : ts.map Token.spelling = x.spellings) :
    ∃ t us, ts = t :: us ∧ AtomTokens t us x := by
  have hsymbol : ∀ {text : String}, x.spellings = [(.symbol, text)] → atomOfSymbol text = x →
      ∃ t us, ts = t :: us ∧ AtomTokens t us x := by
    rintro text hspelling rfl
    exact single_of_spelling (hts.trans hspelling) fun t ht htext => htext ▸ .symbol ht
  cases x with
  | bool value => cases value <;> exact hsymbol rfl rfl
  | nil => exact hsymbol rfl rfl
  | symbol text => exact hsymbol rfl h.2
  | comment text => exact single_of_spelling hts fun t ht htext => htext ▸ .comment ht
  | keyword text => exact single_of_spelling hts fun t ht htext => htext ▸ .keyword ht
  | newline => exact single_of_spelling hts fun t ht _ => .newline ht
  | number text => exact single_of_spelling hts fun t ht htext => htext ▸ .number ht
  | character value text =>
    refine single_of_spelling hts fun t ht htext => ?_
    subst htext
    exact .charLiteral ht h.2
  | string text =>
    refine single_of_spelling hts fun t ht htext => ?_
    rw [← unquote_quoted text, ← htext]
    exact .string ht
  | regex text =>
    refine pair_of_spelling hts fun t u ht hu htext => ?_
    rw [← unquote_quoted text, ← htext]
    exact .regex ht hu
  | tag text =>
    have hspelling : (Atom.tag text).spellings = [(.octothorpe, "#"), (.symbol, text)] := by
      rw [Atom.spellings, spell_tag h hmisread]
    exact pair_of_spelling (hts.trans hspelling) fun t u ht hu htext => htext ▸ .tag ht hu
  | varQuote text => exact pair_of_spelling hts fun t u ht hu htext => htext ▸ .varQuote ht hu

/-! ## 3. Sigils -/

/-- A form that is no dereference starts with another token than `@`. -/
theorem head_spellings {f : Form α} (h : f.Readable inside) (hmisread : ¬ f.Misread)
    (hderef : ∀ note body, f ≠ .prefixed note .deref body) :
    ∃ s ss, f.spellings = s :: ss ∧ s.1 ≠ .atSign := by
  cases f with
  | atom note x =>
    cases x with
    | tag text => exact ⟨_, _, by rw [Form.spellings_atom, Atom.spellings, spell_tag h hmisread],
        by simp⟩
    | bool value => cases value <;> exact ⟨_, _, rfl, by simp⟩
    | _ => exact ⟨_, _, rfl, by simp⟩
  | prefixed note s body =>
    cases s with
    | deref => exact absurd rfl (hderef note body)
    | _ => exact ⟨_, _, rfl, by simp⟩
  | seq note b items =>
    cases b with
    | map namespace? => cases namespace? <;> exact ⟨_, _, rfl, by simp⟩
    | _ => exact ⟨_, _, rfl, by simp⟩

/-- The tokens of a sigil are that sigil, unless it is an unquote in front of an `@`. -/
theorem sigilTokens_of_spelling {s : Sigil} {next : List Token}
    (hts : ts.map Token.spelling = s.spellings)
    (hnext : s = .unquote → ∀ u ∈ next.head?, u.kind ≠ .atSign) :
    ∃ t us, ts = t :: us ∧ SigilTokens next t us s := by
  cases s with
  | deref => exact single_of_spelling hts fun t ht _ => .deref ht
  | metadata => exact single_of_spelling hts fun t ht _ => .metadata (.inl ht)
  | quote => exact single_of_spelling hts fun t ht _ => .quote ht
  | readerDiscard => exact single_of_spelling hts fun t ht _ => .readerDiscard ht
  | readerEval => exact single_of_spelling hts fun t ht _ => .readerEval ht
  | syntaxQuote => exact single_of_spelling hts fun t ht _ => .syntaxQuote ht
  | unquote => exact single_of_spelling hts fun t ht _ => .unquote ht (hnext rfl)
  | unquoteSplice => exact pair_of_spelling hts fun t u ht hu _ => .unquoteSplice ht hu

/-! ## 4. Brackets -/

/-- The tokens that open a sequence open its bracket. -/
theorem openingTokens_of_spelling {items : List (Form α)} {b : Bracket}
    (h : b.Encloses inside items) (hts : ts.map Token.spelling = b.openSpellings) :
    ∃ t us, ts = t :: us ∧ OpeningTokens inside t us b := by
  cases b with
  | list => exact single_of_spelling hts fun t ht _ => .list ht
  | vector => exact single_of_spelling hts fun t ht _ => .vector ht
  | fnLiteral => exact pair_of_spelling hts fun t u ht hu _ => .fnLiteral h ht hu
  | readerCond => exact pair_of_spelling hts fun t u ht hu _ => .readerCond ht hu
  | readerCondSplice => exact pair_of_spelling hts fun t u ht hu _ => .readerCondSplice ht hu
  | set => exact pair_of_spelling hts fun t u ht hu _ => .set ht hu
  | map namespace? =>
    cases namespace? with
    | none => exact single_of_spelling hts fun t ht _ => .map ht
    | some ns =>
      obtain ⟨t, us, rfl, ht, -, hus⟩ := eq_cons_of_spelling hts
      obtain ⟨u, vs, rfl, hu, rfl, hvs⟩ := eq_cons_of_spelling hus
      obtain ⟨v, rfl, hv, -⟩ := eq_of_spelling hvs
      exact ⟨t, [u, v], rfl, .namespacedMap ht hu hv⟩

/-! ## 5. All forms -/

/-- The tokens of neighbouring forms are derived if those of each form are. -/
theorem derivesAll_of_derives {fs : List (Form α)}
    (h : ∀ f ∈ fs, ∀ ts : List Token, ts.map Token.spelling = f.spellings →
      ∃ g, g.bare = f.bare ∧ Derives inside ts g)
    (hts : ts.map Token.spelling = fs.flatMap Form.spellings) :
    ∃ gs, gs.map Form.bare = fs.map Form.bare ∧ DerivesAll inside ts gs := by
  induction fs generalizing ts with
  | nil =>
    obtain rfl : ts = [] := List.map_eq_nil_iff.mp hts
    exact ⟨[], rfl, .nil⟩
  | cons f fs ih =>
    rw [List.flatMap_cons] at hts
    obtain ⟨ts, us, rfl, hts, hus⟩ := List.map_eq_append_iff.mp hts
    rw [List.forall_mem_cons] at h
    obtain ⟨g, hg, hfirst⟩ := h.1 ts hts
    obtain ⟨gs, hgs, hrest⟩ := ih h.2 hus
    exact ⟨g :: gs, by rw [List.map_cons, List.map_cons, hg, hgs], .cons hfirst hrest⟩

/-- The tokens of a readable form are derived as that form. -/
theorem derives_of_readable {f : Form α} (h : f.Readable inside)
    (hmisread : ∀ g ∈ f.nodes, ¬ g.Misread) {ts : List Token}
    (hts : ts.map Token.spelling = f.spellings) :
    ∃ g, g.bare = f.bare ∧ Derives inside ts g := by
  induction f using Form.induct generalizing inside ts with
  | atom note x =>
    obtain ⟨t, us, rfl, hatom⟩ :=
      atomTokens_of_readable h (hmisread (.atom note x) (Form.self_mem_nodes _)) hts
    exact ⟨.atom t.pos x, rfl, .atom hatom⟩
  | prefixed note s body ih =>
    obtain ⟨hsem, hreadable⟩ := Form.readable_prefixed.mp h
    have hbody : ∀ g ∈ body.nodes, ¬ g.Misread := fun g hg => hmisread g (Form.mem_nodes_of_body hg)
    rw [Form.spellings_prefixed] at hts
    obtain ⟨ts, us, rfl, hts, hus⟩ := List.map_eq_append_iff.mp hts
    have hnext : s = .unquote → ∀ u ∈ ([] ++ us).head?, u.kind ≠ .atSign := by
      rintro rfl
      have hderef : ∀ note body', body ≠ .prefixed note .deref body' := by
        rintro note body' rfl
        exact hmisread _ (Form.self_mem_nodes _) ⟨rfl, rfl⟩
      obtain ⟨first, later, hfirst, hkind⟩ :=
        head_spellings hreadable (hbody _ body.self_mem_nodes) hderef
      obtain ⟨u, us, rfl, hu, -, -⟩ := eq_cons_of_spelling (hus.trans hfirst)
      simpa [hu] using hkind
    obtain ⟨t, ts, rfl, hsigil⟩ := sigilTokens_of_spelling hts hnext
    obtain ⟨g, hg, hderives⟩ := ih hreadable hbody hus
    have hsemg : g.isSemantic = true := by
      rw [← Form.isSemantic_bare, hg, Form.isSemantic_bare, hsem]
    refine ⟨.prefixed t.pos s g, by rw [Form.bare_prefixed, Form.bare_prefixed, hg], ?_⟩
    have hform := Derives.prefixed hsigil (by simp) hderives hsemg
    rwa [List.append_nil] at hform
  | seq note b items ih =>
    obtain ⟨hb, hitems⟩ := Form.readable_seq.mp h
    rw [Form.spellings_seq] at hts
    obtain ⟨ts, us, rfl, hfront, hus⟩ := List.map_eq_append_iff.mp hts
    obtain ⟨ts, vs, rfl, hopening, hvs⟩ := List.map_eq_append_iff.mp hfront
    obtain ⟨u, rfl, hu, -⟩ := eq_of_spelling hus
    obtain ⟨t, ts, rfl, hopens⟩ := openingTokens_of_spelling hb hopening
    obtain ⟨gs, hgs, hderives⟩ := derivesAll_of_derives (fun f hf ts => ih f hf (hitems f hf)
      fun g hg => hmisread g (Form.mem_nodes_of_mem hf hg)) hvs
    have heven : ∀ ns, b = .map ns → gs.countP Form.isPaired % 2 = 0 := by
      rintro ns rfl
      have hcount : (gs.map Form.bare).countP Form.isPaired
          = (items.map Form.bare).countP Form.isPaired := by
        rw [hgs]
      simp only [List.countP_map, Function.comp_def, Form.isPaired_bare] at hcount
      rw [hcount]
      exact hb.1
    exact ⟨.seq t.pos b gs, by rw [Form.bare_seq, Form.bare_seq, hgs],
      .seq hopens hderives hu heven⟩

/-- A text whose tokens are those of readable forms is read as these forms. -/
theorem read_of_spell {fs : List (Form α)} {source : String}
    (h : ∀ f ∈ fs, f.Readable false) (hmisread : ∀ g ∈ Form.nodesAll fs, ¬ g.Misread)
    (hsource : spell source.toList = (fs.flatMap Form.spellings, none)) :
    ∃ d, read .everything source = .ok d ∧ d.roots.map Form.bare = fs.map Form.bare := by
  rw [← spelled_scan] at hsource
  simp only [Scan.spelled, Prod.mk.injEq] at hsource
  obtain ⟨gs, hgs, hderives⟩ := derivesAll_of_derives (fun f hf ts => derives_of_readable (h f hf)
    fun g hg => hmisread g (Form.mem_nodesAll hf hg)) hsource.1
  obtain ⟨d, hread, hroots⟩ := read_of_derives (complete_eq_ok.mpr ⟨hsource.2, rfl⟩) hderives
  refine ⟨d, hread, ?_⟩
  calc d.roots.map Form.bare
      = (d.roots.map Form.located).map Form.bare := by
        rw [List.map_map]
        exact List.map_congr_left fun f _ => f.bare_located.symm
    _ = fs.map Form.bare := by rw [hroots, hgs]

end Reader

end CljFormat
