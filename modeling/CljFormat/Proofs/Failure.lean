/-
CljFormat.Proofs.Failure — what can make formatting fail.

A source goes through three steps, and each has errors of its own: it is read as a tree, the tree is
edited, and its forms are laid out. An edit is refused if it gives an atom parts or a sigil other
than one part, and the layout cannot write a line break that stands under a sigil. Neither ever
happens. The edits of a tree that was read are all accepted (`format_of_read`), and since the reader
puts only code under a sigil and the transforms keep it there, every line break stands in a sequence
(`format_of_read_ok`). So a source is refused exactly if it cannot be read, with the error of the
reader (`format_eq_error_iff`).
-/
import CljFormat.Proofs.RoundTrip

namespace CljFormat

variable {config : Config} {source : String}

/-- A source that can be read can be formatted. -/
theorem format_of_read_ok {d : Reader.Document}
    (hread : Reader.read config.options source = .ok d) :
    format config source
      = .ok (Layout.toText config.indentChar
          (layOut config.table (Transform.applyAll config.transforms d.roots))) := by
  have hreadable := Transform.readable_applyAll config.transforms (Reader.readable_of_read hread)
  rw [format_of_read hread, formatForms, strayNewlineAmong_eq_none _ hreadable]

/-- A source that cannot be read is refused for the same cause. -/
theorem format_of_read_error {cause : SyntaxError}
    (hread : Reader.read config.options source = .error cause) :
    format config source = .error (.malformed cause) := by
  have htree : readTree config source = .error (.malformed cause) := by rw [readTree, hread]
  rw [format, htree]
  rfl

/-- Formatting fails exactly if reading does, with that error and its wording. -/
theorem format_eq_error_iff (config : Config) (source : String) (e : FormatError) :
    format config source = .error e ↔
      ∃ cause, Reader.read config.options source = .error cause ∧ e = .malformed cause ∧
        ∀ name, e.message name = cause.message name := by
  cases hread : Reader.read config.options source with
  | ok d => simp [format_of_read_ok hread]
  | error cause =>
    rw [format_of_read_error hread]
    constructor
    · rintro ⟨rfl⟩
      exact ⟨cause, rfl, rfl, fun _ => rfl⟩
    · rintro ⟨_, ⟨rfl⟩, rfl, -⟩
      rfl

end CljFormat
