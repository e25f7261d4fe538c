/-
CljFormat.Proofs.Reader.CodeOnly — keeping line breaks and comments adds them and nothing else.

A form without the line breaks and comments anywhere in it is `Form.codeOnly`. Reading a source
without them gives what is left when they are sifted out of what is read with them
(`Proofs.Reader.Sift`). No line break or comment is a key or a value, so a map pairs up with them if
it does so without them, and the two readings end with the same error, or with forms that differ in
line breaks and comments only (`read_codeOnly`).

It matters that `(comment …)` forms are not dropped: in `(;a⏎ comment x)` the first item of the list
is the comment `;a` if comments are kept, and the symbol `comment` if not.
-/
import CljFormat.Proofs.Reader.Built
import CljFormat.Proofs.Reader.Sift

namespace CljFormat

/-! ## 1. Forms without line breaks and comments -/

namespace Form

variable {α : Type}

mutual

/-- A form without the line breaks and comments in it. One under a sigil stays. -/
def codeOnly : Form α → Form α
  | .atom note x => .atom note x
  | .prefixed note s body => .prefixed note s body.codeOnly
  | .seq note b items => .seq note b (codeOnlyAll items)

/-- Neighbouring forms without the line breaks and comments among them and in them. -/
def codeOnlyAll : List (Form α) → List (Form α)
  | [] => []
  | f :: rest => if f.isSemantic then f.codeOnly :: codeOnlyAll rest else codeOnlyAll rest

end

theorem codeOnlyAll_eq_map (fs : List (Form α)) :
    codeOnlyAll fs = (fs.filter isSemantic).map codeOnly := by
  induction fs with
  | nil => rfl
  | cons f rest ih => cases hf : f.isSemantic <;> simp [codeOnlyAll, hf, ih]

/-- Without line breaks and comments a form is what is left when only code passes. -/
theorem sift_isSemantic (f : Form α) : f.sift isSemantic = f.codeOnly := by
  induction f using Form.induct with
  | atom note x => rfl
  | prefixed note s body ih => rw [sift, codeOnly, ih]
  | seq note b items ih =>
    rw [sift, codeOnly, siftAll_eq_filter, codeOnlyAll_eq_map, List.filter_map,
      List.map_congr_left fun f hf => ih f (List.mem_filter.mp hf).1]
    simp [Function.comp_def]

theorem siftAll_isSemantic (fs : List (Form α)) : siftAll isSemantic fs = codeOnlyAll fs := by
  rw [siftAll_eq_filter, codeOnlyAll_eq_map, List.filter_map, funext sift_isSemantic]
  simp [Function.comp_def, ← sift_isSemantic]

/-- Line breaks and comments are no keys or values. -/
theorem lost_isSemantic (fs : List (Form α)) : lost isSemantic fs = 0 := by
  have hpaired : ∀ f : Form α, f.isPaired = true → f.isSemantic = true := by
    intro f hf
    exact (Bool.and_eq_true _ _ ▸ hf).1
  refine List.countP_eq_zero.mpr fun f _ => ?_
  simpa using hpaired f

end Form

namespace Reader

open Form (codeOnlyAll siftAll_isSemantic lost_isSemantic)

/-- A document without the line breaks and comments in it. -/
def Document.codeOnly (d : Document) : Document :=
  { d with roots := codeOnlyAll d.roots }

/-! ## 2. Sources -/

variable {options : Options}

/-- Keep line breaks and comments. -/
def Options.withTrivia (options : Options) : Options :=
  { options with nonSemantic := true }

/-- Drop line breaks and comments. -/
def Options.withoutTrivia (options : Options) : Options :=
  { options with nonSemantic := false }

/-- What is kept without line breaks and comments is the code of what is kept with them. -/
theorem sifts_isSemantic (hoptions : options.ignoreCommentForms = false) :
    Sifts options.withTrivia options.withoutTrivia Form.isSemantic := by
  intro f
  simp only [Options.keeps, Options.withTrivia, Options.withoutTrivia, hoptions,
    Form.isSemantic_sift, Bool.false_and, Bool.not_false, Bool.true_and, Bool.false_or,
    Bool.true_or, Bool.and_true]
  cases f with
  | prefixed l s body => cases s <;> rfl
  | _ => rfl

theorem ofScan_codeOnly (hoptions : options.ignoreCommentForms = false) (s : Scan) :
    ofScan options.withoutTrivia s = (ofScan options.withTrivia s).map Document.codeOnly := by
  have hdocument : Document.sift Form.isSemantic = Document.codeOnly := by
    funext d
    rw [Document.sift, siftAll_isSemantic, Document.codeOnly]
  rcases ofScan_sift (sifts_isSemantic hoptions) s with hsame | ⟨pos, hunpairs, -⟩
  · rw [hsame, hdocument]
  · obtain ⟨_, _, _, _, -, -, -, _, _, items, _, -, hodd⟩ := hunpairs
    simp [lost_isSemantic items] at hodd

/-- Reading a source without its line breaks and comments fails as reading it with them does, or
gives what is left of its forms when these are deleted from the roots and from every sequence. -/
theorem read_codeOnly (discards : Bool) (source : String) :
    read { nonSemantic := false, ignoreReaderDiscard := discards } source
      = (read { nonSemantic := true, ignoreReaderDiscard := discards } source).map
          Document.codeOnly :=
  @ofScan_codeOnly { ignoreReaderDiscard := discards } rfl (scan source)

/-- What is read without line breaks and comments holds none at any depth, not even under a
sigil. -/
theorem isSemantic_of_read {source : String} {d : Document}
    (h : read options.withoutTrivia source = .ok d) :
    ∀ f ∈ Form.nodesAll d.roots, f.isSemantic = true := by
  have hkept : ∀ f : Form Label, options.withoutTrivia.keeps f = true → f.isSemantic = true := by
    intro f hf
    exact (Bool.and_eq_true _ _ ▸ hf).2
  intro g hg
  rw [Form.nodesAll_eq_flatMap] at hg
  obtain ⟨f, hf, hg⟩ := List.mem_flatMap.mp hg
  obtain ⟨hbuilt, hroot⟩ := built_of_read h f hf
  rcases hbuilt.eq_or_under_sigil hg with rfl | ⟨l, s, hk⟩ | hkeeps
  · exact hkept g hroot
  · cases hbuilt.of_mem_nodes hk with
    | prefixed s hsem _ _ => exact hsem
  · exact hkept g hkeeps

end Reader

end CljFormat
