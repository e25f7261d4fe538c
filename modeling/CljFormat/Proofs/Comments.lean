/-
CljFormat.Proofs.Comments — what formatting does to comments.

A comment between a sigil and its form is passed over when the source is read, and so it is not
written again. Every other comment is written, with its text and in its place among the others, and
nothing that is written reads as a comment beside them (`comments_format`). Line breaks may be
rearranged on the way.

As in a round trip, a source whose docstrings swallow their closing quotes is left out, and one with
a tag that reads as something else when it is written, such as `# !x`. A tag that merely reads as
another form, such as `# _x`, does no harm here.
-/
import CljFormat.Proofs.Reader.Comments
import CljFormat.Proofs.RoundTrip

namespace CljFormat

open Layout (Indents Realigned settled)

variable {config : Config} {source : String} {d : Reader.Document} {roots : List (Form Label)}

/-- A source whose scan ends without a fault is scanned to its end. -/
theorem complete_of_fault {s : Scan} (h : s.ending.fault = none) : s.complete = .ok s.tokens := by
  rw [Scan.complete, Scan.Ending.error?, h]
  rfl

/-- The comments of a text are those of the forms it was written for. -/
theorem comments_formatForms (hindent : Indents config.indentChar)
    (h : ∀ f ∈ roots, f.Readable false) (hclear : ∀ f ∈ Form.nodesAll roots, f.Clear)
    (hcloses : Closes config.table roots) :
    ∃ text, formatForms config roots = .ok text ∧ (scan text).ending.fault = none ∧
      commentTexts ((scan text).tokens.map Token.spelling) = roots.flatMap Form.comments := by
  obtain ⟨text, htext, hspell⟩ := spell_formatForms hindent h hclear hcloses
  rw [← spelled_scan, Scan.spelled, Prod.mk.injEq] at hspell
  have hback := @comesBack_settled config.table roots config.indentChar hindent
  have halike : ∀ l x y, Realigned (documents config.table roots l) x y → x.Alike y :=
    fun _ _ _ h => h.alike
  refine ⟨text, htext, hspell.2, ?_⟩
  calc commentTexts ((scan text).tokens.map Token.spelling)
      = commentTexts ((settled config.indentChar (planned config.table roots)).flatMap
          Form.spellings) := by rw [hspell.1]
    _ = (settled config.indentChar (planned config.table roots)).flatMap Form.comments :=
        Form.commentTexts_flatMap fun f hf => Form.commentTexts_spellings fun g hg =>
          hback.clear halike hclear g (Form.mem_nodesAll hf hg)
    _ = roots.flatMap Form.comments := hback.comments halike

/-- The comments that are written are those of the source, without the ones that stand between a
sigil and its form. -/
theorem comments_format (hindent : Indents config.indentChar)
    (hoptions : config.options = .everything) (hread : Reader.read .everything source = .ok d)
    (hclear : ∀ f ∈ Form.nodesAll (Transform.applyAll config.transforms d.roots), f.Clear)
    (hcloses : Closes config.table (Transform.applyAll config.transforms d.roots)) :
    ∃ text ts us, format config source = .ok text ∧ (scan source).complete = .ok ts ∧
      (scan text).complete = .ok us ∧
      commentTexts (us.map Token.spelling)
        = Reader.keptComments false (ts.map Token.spelling) := by
  have hreadable := Transform.readable_applyAll config.transforms (Reader.readable_of_read hread)
  obtain ⟨text, htext, hscanned, hcomments⟩ :=
    comments_formatForms hindent hreadable hclear hcloses
  rw [← format_of_read (hoptions.symm ▸ hread)] at htext
  obtain ⟨σ, -, hsource, -⟩ := Reader.read_eq_ok.mp hread
  refine ⟨text, _, _, htext, complete_of_fault hsource, complete_of_fault hscanned, ?_⟩
  rw [hcomments, Transform.comments_applyAll]
  exact Reader.comments_of_read hread

/-- Comments at top level, in brackets and behind a tag are kept, and the one behind a quote is
not. -/
theorem comments_format_tag :
    ∃ d text ts us, Reader.read .everything ";a\n(f # _ ;b\n' ;c\n[x ;d\n])" = .ok d ∧
      (∀ f ∈ Form.nodesAll (Transform.applyAll [] d.roots), f.Clear) ∧
      Closes {} (Transform.applyAll [] d.roots) ∧
      format {} ";a\n(f # _ ;b\n' ;c\n[x ;d\n])" = .ok text ∧
      (scan ";a\n(f # _ ;b\n' ;c\n[x ;d\n])").complete = .ok ts ∧
      (scan text).complete = .ok us ∧
      commentTexts (us.map Token.spelling) = Reader.keptComments false (ts.map Token.spelling) := by
  have hread : ∃ d, Reader.read .everything ";a\n(f # _ ;b\n' ;c\n[x ;d\n])" = .ok d ∧
      (∀ f ∈ Form.nodesAll (Transform.applyAll [] d.roots), f.Clear) ∧
      Closes {} (Transform.applyAll [] d.roots) := ⟨_, rfl, by decide, by decide⟩
  obtain ⟨d, hread, hclear, hcloses⟩ := hread
  obtain ⟨text, ts, us, htext, hts, hus, hcomments⟩ :=
    @comments_format {} _ _ (.inl rfl) rfl hread hclear hcloses
  exact ⟨d, text, ts, us, hread, hclear, hcloses, htext, hts, hus, hcomments⟩

/-- A comment between a quote and its form is lost. -/
theorem comment_lost :
    format {} "';c\nx" = .ok "'x" ∧
      commentTexts ((scan "';c\nx").tokens.map Token.spelling) = [";c"] ∧
      commentTexts ((scan "'x").tokens.map Token.spelling) = [] :=
  ⟨rfl, by decide, by decide⟩

end CljFormat
