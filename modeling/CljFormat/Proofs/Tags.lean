/-
CljFormat.Proofs.Tags — a tag in front of its name.

In a source blanks may stand between the `#` of a tag and its name. The layout writes the two side
by side (`format_spaced_tag`), and there the character behind the `#` decides what it starts. Most
symbols are read as the name of the tag again. Behind `_`, `=`, `?`, `!` or `<` the `#` is the mark
of something else, so that the tag is lost: it becomes a discard, an evaluation, a conditional, a
comment, or nothing that can be read (`Atom.Misread`).
-/
import CljFormat.Proofs.Failure
import CljFormat.Proofs.Token.Alone

namespace CljFormat

variable {text gap name : String}

/-! ## 1. Blanks behind a mark -/

/-- A blank that is no line break is skipped. -/
theorem Lexeme.ofChars_of_isBlank {c : Char} (hblank : Text.isBlank c = true) (hc : c ≠ '\n')
    (cs : List Char) : Lexeme.ofChars c cs = .blank := by
  have hlead : c ∉ Lexeme.leads := by
    intro hmem
    simp only [Lexeme.leads, List.mem_cons, List.not_mem_nil, or_false] at hmem
    rcases hmem with rfl | rfl | rfl | rfl | rfl | rfl | rfl | rfl | rfl | rfl | rfl | rfl | rfl |
      rfl | rfl | rfl | rfl | rfl | rfl | rfl
    case inr.inr.inr.inr.inr.inr.inr.inr.inr.inr.inr.inr.inr.inr.inr.inr.inr.inr.inr =>
      exact hc rfl
    all_goals exact absurd hblank (by decide)
  rw [Lexeme.ofChars_of_not_lead hlead, if_pos hblank]

theorem spell_blanks_append {blanks : List Char}
    (h : ∀ c ∈ blanks, Text.isBlank c = true ∧ c ≠ '\n') (cs : List Char) :
    spell (blanks ++ cs) = spell cs := by
  induction blanks with
  | nil => rfl
  | cons c blanks ih =>
    obtain ⟨hblank, hc⟩ := h c List.mem_cons_self
    rw [List.cons_append, spell_blank (Lexeme.ofChars_of_isBlank hblank hc _)]
    exact ih fun d hd => h d (List.mem_cons_of_mem _ hd)

/-- A `#` in front of a blank is the mark of a tag. -/
theorem spell_hash_blanks {blanks : List Char} (hne : blanks ≠ [])
    (h : ∀ c ∈ blanks, Text.isBlank c = true ∧ c ≠ '\n') (cs : List Char) :
    spell ('#' :: (blanks ++ cs)) = ((.octothorpe, "#") :: (spell cs).1, (spell cs).2) := by
  have hbreaks : Breaks (blanks ++ cs) := by
    intro c hc
    rw [List.head?_append_of_ne_nil _ hne] at hc
    exact .inl (h c (List.mem_of_mem_head? hc)).1
  have hmark : ∀ c ∈ (blanks ++ cs).head?, c ∉ Lexeme.dispatchMarks := fun c hc hmem =>
    hbreaks.not_mark c hc (List.mem_cons_of_mem _ hmem)
  have htoken : Lexeme.ofChars '#' ([] ++ (blanks ++ cs)) = .token .octothorpe [] [] :=
    Lexeme.dispatch_of_not_mark hmark
  rw [← List.nil_append (blanks ++ cs), spell_token htoken, spell_blanks_append h]
  rfl

/-! ## 2. What reads as a tag -/

/-- A text whose tokens are a `#` and a symbol is read as a tag. -/
theorem read_of_spell_tag {source : String}
    (h : spell source.toList = ([(.octothorpe, "#"), (.symbol, name)], none)) :
    ∃ d, Reader.read .everything source = .ok d ∧
      d.roots.map Form.bare = [.atom () (.tag name)] := by
  rw [← spelled_scan, Scan.spelled, Prod.mk.injEq] at h
  obtain ⟨htokens, hfault⟩ := h
  obtain ⟨t, ts, hscan, ht, hlater⟩ := List.map_eq_cons_iff.mp htokens
  obtain ⟨u, rfl, hu⟩ := List.map_eq_singleton_iff.mp hlater
  obtain ⟨hmark, -⟩ := Prod.mk.injEq .. ▸ ht
  obtain ⟨hsymbol, hname⟩ := Prod.mk.injEq .. ▸ hu
  have hderives : Reader.DerivesAll false ([t, u] ++ []) [.atom t.pos (.tag u.text)] :=
    .cons (.atom (.tag hmark hsymbol)) .nil
  obtain ⟨d, hread, hroots⟩ :=
    Reader.read_of_derives (Reader.complete_eq_ok.mpr ⟨hfault, hscan⟩) hderives
  refine ⟨d, hread, ?_⟩
  have hbare := congrArg (List.map Form.bare) hroots
  rw [List.map_map, Function.comp_def] at hbare
  simp only [Form.bare_located] at hbare
  rw [hbare, ← hname]
  rfl

/-- Only a `#` by itself starts a tag. -/
theorem octothorpe_of_read_tag {source : String} {d : Reader.Document}
    (hread : Reader.read .everything source = .ok d)
    (htag : d.roots.map Form.bare = [.atom () (.tag name)]) :
    ∃ x ∈ (spell source.toList).1.head?, x.1 = .octothorpe := by
  obtain ⟨-, hderives⟩ := Reader.derives_of_read hread
  obtain ⟨f, hroots, hf⟩ := List.map_eq_singleton_iff.mp htag
  rw [hroots, List.map_cons, List.map_nil] at hderives
  have hspelled : (spell source.toList).1 = (scan source).tokens.map Token.spelling := rfl
  rw [hspelled]
  generalize (scan source).tokens = ts at hderives
  cases f with
  | atom l x =>
    obtain rfl : x = .tag name := by simpa using hf
    rw [Form.located_atom] at hderives
    generalize l.pos = p at hderives
    cases hderives with
    | cons hfirst _ =>
      cases hfirst with
      | atom hatom =>
        generalize hx : Atom.tag name = x at hatom
        cases hatom with
        | tag hmark _ => exact ⟨_, rfl, hmark⟩
        | symbol =>
          unfold Reader.atomOfSymbol at hx
          split_ifs at hx
        | _ => simp at hx
  | prefixed l s body => simp at hf
  | seq l b items => simp at hf

/-! ## 3. Tags and their names side by side -/

/-- Behind a `#`, a character that is the mark of something else starts no tag. -/
theorem Lexeme.kind_ne_octothorpe {cs body ahead : List Char} {kind : Token.Kind} {c : Char}
    (hc : c ∈ cs.head?) (hmark : c ∈ Lexeme.dispatchMarks)
    (h : Lexeme.dispatch cs = .token kind body ahead) : kind ≠ .octothorpe := by
  rintro rfl
  unfold Lexeme.dispatch at h
  split at h
  case h_13 => cases cs <;> simp_all [Lexeme.dispatchMarks]
  all_goals simp [Lexeme.comment] at h

/-- A `#` and a symbol side by side are a tag, unless the symbol starts with the mark of something
else. -/
theorem read_tag_iff (hname : Stands .symbol name.toList) :
    (∃ d, Reader.read .everything ("#" ++ name) = .ok d ∧
        d.roots.map Form.bare = [.atom () (.tag name)]) ↔ ¬ (Atom.tag name).Misread := by
  have htext : ("#" ++ name).toList = '#' :: name.toList := by simp
  constructor
  · rintro ⟨d, hread, htag⟩ ⟨c, hc, hmark⟩
    obtain ⟨x, hx, hkind⟩ := octothorpe_of_read_tag hread htag
    rw [htext] at hx
    have hdispatch : c ∈ Lexeme.dispatchMarks := by
      simp only [List.mem_cons, List.not_mem_nil, or_false] at hmark
      rcases hmark with rfl | rfl | rfl | rfl | rfl <;> decide
    cases hlexeme : Lexeme.dispatch name.toList with
    | blank => exact absurd (Lexeme.isBlank_of_blank (c := '#') hlexeme) (by decide)
    | fault cause =>
      rw [spell, scanFrom_fault (c := '#') _ hlexeme] at hx
      simp [Scan.spelled] at hx
    | token kind body ahead =>
      rw [spell, scanFrom_token (c := '#') _ hlexeme] at hx
      obtain rfl : _ = x := by simpa [Scan.spelled] using hx
      exact Lexeme.kind_ne_octothorpe hc hdispatch hlexeme hkind
  · intro hmisread
    exact read_of_spell_tag (htext ▸ spell_tag hname hmisread)

/-- A tag by itself is set with its name right behind its `#`. -/
theorem toText_tag (c : Char) (table : IndentTable) (l : Label) (name : String) :
    Layout.toText c (layOut table [.atom l (.tag name)]) = "#" ++ name := by
  have hpieces : layOut table [.atom l (.tag name)] = [.text 0 ("#" ++ name)] := by
    simp only [layOut, Layout.planAll, Layout.plan, Layout.sourcePieces, Layout.itemPieces,
      Layout.formPieces, Layout.atomPieces]
    rfl
  rw [hpieces, Layout.toText, List.flatMap_singleton]
  exact String.ofList_toList

/-- A tag whose name stands behind blanks is set with its `#` and its name side by side. That text
is read as the same tag unless the name starts with the mark of something else. -/
theorem format_spaced_tag (htext : ScansAs text (.symbol, name)) (hgap : gap ≠ "")
    (hblank : ∀ c ∈ gap.toList, Text.isBlank c = true ∧ c ≠ '\n') :
    format {} ("#" ++ gap ++ text) = .ok ("#" ++ name) ∧
      ((∃ d, Reader.read .everything ("#" ++ name) = .ok d ∧
          d.roots.map Form.bare = [.atom () (.tag name)]) ↔ ¬ (Atom.tag name).Misread) := by
  refine ⟨?_, read_tag_iff (htext.stands rfl)⟩
  have hne : gap.toList ≠ [] := fun hnil => hgap (by rw [← String.toList_inj, hnil]; rfl)
  have hsource : ("#" ++ gap ++ text).toList = '#' :: (gap.toList ++ text.toList) := by simp
  have hspell : spell ("#" ++ gap ++ text).toList
      = ([(.octothorpe, "#"), (.symbol, name)], none) := by
    rw [hsource, spell_hash_blanks hne hblank, scansAs_iff.mp htext]
  obtain ⟨d, hread, htag⟩ := read_of_spell_tag hspell
  obtain ⟨f, hroots, hf⟩ := List.map_eq_singleton_iff.mp htag
  have hformat := @format_of_read_ok {} _ _ hread
  rw [hformat, Transform.applyAll_nil, hroots]
  cases f with
  | atom l x =>
    obtain rfl : x = .tag name := by simpa using hf
    rw [toText_tag]
  | prefixed l s body => simp at hf
  | seq l b items => simp at hf

/-- Blanks and commas in front of `inst` are dropped, and `#inst` is read as the tag again. -/
theorem format_spaced_inst :
    ScansAs "inst" (.symbol, "inst") ∧ " ," ≠ "" ∧
      (∀ c ∈ " ,".toList, Text.isBlank c = true ∧ c ≠ '\n') ∧
      format {} ("#" ++ " ," ++ "inst") = .ok ("#" ++ "inst") ∧
      ((∃ d, Reader.read .everything ("#" ++ "inst") = .ok d ∧
          d.roots.map Form.bare = [.atom () (.tag "inst")]) ↔ ¬ (Atom.tag "inst").Misread) := by
  have htext : ScansAs "inst" (.symbol, "inst") := ⟨_, rfl, rfl⟩
  have hblank : ∀ c ∈ " ,".toList, Text.isBlank c = true ∧ c ≠ '\n' := by
    intro c hc
    obtain rfl | rfl : c = ' ' ∨ c = ',' := by simpa using hc
    · decide
    · decide
  exact ⟨htext, by decide, hblank, format_spaced_tag htext (by decide) hblank⟩

/-- The tag `_x` is set as the text of a discard of `x`. -/
theorem spaced_tag_becomes_discard :
    ScansAs "_x" (.symbol, "_x") ∧
      (∃ d, Reader.read .everything "# _x" = .ok d ∧
        d.roots.map Form.bare = [.atom () (.tag "_x")]) ∧
      format {} "# _x" = .ok "#_x" ∧
      ∃ d, Reader.read .everything "#_x" = .ok d ∧
        d.roots.map Form.bare = [.prefixed () .readerDiscard (.atom () (.symbol "x"))] :=
  ⟨⟨_, rfl, rfl⟩, ⟨_, rfl, rfl⟩, rfl, ⟨_, rfl, rfl⟩⟩

end CljFormat
