/-
CljFormat.Proofs.Idempotence — formatted text is formatted.

Formatted text is read as other forms than the source was: it has line breaks where the layout put
them in, its docstrings are aligned, and its forms have other identities. None of this matters to
the second layout. The forms are a copy of the first ones, so they are planned alike; and they are
settled, so they are set the same.
-/
import CljFormat.Proofs.Layout.Again
import CljFormat.Proofs.Layout.Replan
import CljFormat.Proofs.Reader.Numbering
import CljFormat.Proofs.RoundTrip

namespace CljFormat

variable {config : Config} {source text : String} {d : Reader.Document}

/-- The forms that settled text is read as are laid out as the first ones were. -/
theorem layOut_again {table : IndentTable} {back : Reader.Document}
    (hread : Reader.read .everything source = .ok d)
    (hback : Reader.read .everything text = .ok back)
    (hroots : back.roots.map Form.bare
      = (Layout.settled ' ' (planned table d.roots)).map Form.bare) :
    layOut table back.roots = layOut table d.roots := by
  have hecho := (comesBack_settled (.inl rfl)).of_bare hroots
  obtain ⟨I, hI, hcopy⟩ := Layout.exists_copyAll (fun _ _ _ h => h.alike) hecho
    (Reader.nodup_of_read hread) (Reader.nodup_of_read hback)
  have hplans : Form.EchoesAll Eq (fun _ => Atom.Alike) false (planned table d.roots)
      (planned table back.roots) := Layout.planned_copy hI hcopy
  have hbare : (planned table back.roots).map Form.bare
      = (Layout.settled ' ' (planned table d.roots)).map Form.bare :=
    (Layout.bare_planAll {} back.roots).trans hroots
  exact Layout.sourcePieces_again hplans hbare

/-- Formatting a faithful source a second time changes nothing. -/
theorem format_format (hindent : config.indentChar = ' ') (htransforms : config.transforms = [])
    (hoptions : config.options = .everything) (hread : Reader.read .everything source = .ok d)
    (hfaithful : Faithful config.table d.roots) (h : format config source = .ok text) :
    format config text = .ok text := by
  rw [format_of_read (hoptions.symm ▸ hread), htransforms, Transform.applyAll_nil] at h
  have hreadable := Reader.readable_of_read hread
  obtain ⟨text', back, htext, hback, hroots⟩ :=
    read_formatForms (.inl hindent) hreadable hfaithful
  obtain rfl : text = text' := by
    rw [h] at htext
    injection htext
  rw [hindent] at hroots
  have hbreaks := strayNewlineAmong_eq_none back.roots (Reader.readable_of_read hback)
  rw [formatForms, strayNewlineAmong_eq_none d.roots hreadable] at h
  rw [format_of_read (hoptions.symm ▸ hback), htransforms, Transform.applyAll_nil, formatForms,
    hbreaks, layOut_again hread hback hroots]
  exact h

/-- A definition with a docstring whose second line moves, and a comment that a carriage return
ends. -/
theorem format_format_definition :
    ∃ d text, Reader.read .everything "(defn f\n\"a\n  b\"\n[x] ;c\rx)" = .ok d ∧
      Faithful {} d.roots ∧ format {} "(defn f\n\"a\n  b\"\n[x] ;c\rx)" = .ok text ∧
      text ≠ "(defn f\n\"a\n  b\"\n[x] ;c\rx)" ∧ format {} text = .ok text := by
  have hread : ∃ d, Reader.read .everything "(defn f\n\"a\n  b\"\n[x] ;c\rx)" = .ok d ∧
      Faithful {} d.roots := ⟨_, rfl, by decide⟩
  obtain ⟨d, hread, hfaithful⟩ := hread
  have hformat : format {} "(defn f\n\"a\n  b\"\n[x] ;c\rx)"
      = .ok "(defn f\n  \"a\n  b\"\n  [x] ;c\n  x)" := rfl
  exact ⟨d, _, hread, hfaithful, hformat, by decide,
    format_format rfl rfl rfl hread hfaithful hformat⟩

end CljFormat
