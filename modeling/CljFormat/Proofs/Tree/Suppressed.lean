/-
CljFormat.Proofs.Tree.Suppressed — which forms the reader's options leave out.

Two options drop `(comment …)` lists and forms behind `#_`. A form is dropped where it is delivered
to a sequence or to the roots, and nowhere else. Under a sigil every form of code is taken, so there
a form stays that the options would drop: in `'#_x y` the quote takes the discarded form `#_x`, and
`y` is left as a root of its own.

So the nodes of such forms that a tree still reaches are the parts of sigils
(`sigil_of_suppressed`), and there are such nodes (`suppressed_under_quote`).
-/
import CljFormat.Proofs.Reader.Built
import CljFormat.Proofs.Tree.Rearrange

namespace CljFormat

open Reader (Options)

namespace Tree

variable {options : Options} {t : Tree} {parent : Option NodeId} {f g : Form Label}
  {fs : List (Form Label)}

/-! ## 1. Nodes that the options would drop -/

/-- Whether a node is a form behind `#_`. -/
def isDiscard (t : Tree) (id : NodeId) : Bool :=
  match t.shape? id with
  | some (.prefixed .readerDiscard _) => true
  | _ => false

/-- Whether the options ask for a node to be dropped. -/
def suppresses (options : Options) (t : Tree) (id : NodeId) : Bool :=
  (options.ignoreCommentForms && t.isCommentForm id) ||
    (options.ignoreReaderDiscard && t.isDiscard id)

theorem Holds.isCommentForm (h : t.Holds parent f) :
    t.isCommentForm f.id = f.isCallOf "comment" :=
  h.isCallOf "comment"

/-- What is kept is nothing that the options ask to be dropped. -/
theorem suppresses_of_keeps (h : t.Holds parent f) (hkept : options.keeps f = true) :
    t.suppresses options f.id = false := by
  simp only [Options.keeps, Bool.and_eq_true, Bool.not_eq_true'] at hkept
  have hdiscard : (options.ignoreReaderDiscard && t.isDiscard f.id) = false := by
    rw [isDiscard, h.shape]
    cases f with
    | prefixed l s body =>
      cases s with
      | readerDiscard => exact hkept.1.2
      | _ => exact Bool.and_false _
    | _ => exact Bool.and_false _
  rw [suppresses, h.isCommentForm, hkept.1.1, hdiscard]
  rfl

/-! ## 2. Nodes that are reached -/

theorem mem_flatten_iff (h : t.Represents fs) {i : NodeId} :
    i ∈ t.flatten ↔ ∃ f ∈ fs, ∃ g ∈ f.nodes, g.id = i := by
  simp only [flatten_of_represents h, List.mem_flatMap, Form.ids, List.mem_map]

/-- A node that the options ask to be dropped and that is reached all the same stands under a
sigil. -/
theorem sigil_of_suppressed {source : String} {d : Reader.Document}
    (h : Reader.read options source = .ok d) {i : NodeId} (hi : i ∈ (ofDocument d).flatten)
    (hsuppressed : (ofDocument d).suppresses options i = true) :
    ∃ p ∈ (ofDocument d).flatten, ∃ s, (ofDocument d).shape? p = some (.prefixed s i) := by
  have htree := represents_ofDocument h
  obtain ⟨f, hf, g, hg, rfl⟩ := (mem_flatten_iff htree).mp hi
  obtain ⟨hbuilt, hkept⟩ := Reader.built_of_read h f hf
  obtain ⟨_, hheld⟩ := (htree.holds f hf).below hg
  have hdropped : options.keeps g ≠ true := by
    intro hkeeps
    simp [suppresses_of_keeps hheld hkeeps] at hsuppressed
  rcases hbuilt.eq_or_under_sigil hg with rfl | ⟨l, s, hk⟩ | hkeeps
  · exact absurd hkept hdropped
  · obtain ⟨_, hsigil⟩ := (htree.holds f hf).below hk
    exact ⟨l.id, (mem_flatten_iff htree).mpr ⟨f, hf, _, hk, rfl⟩, s, hsigil.shape⟩
  · exact absurd hkeeps hdropped

/-- The discarded form `#_x` under the quote is reached, the one in the list is not. -/
theorem sigil_of_suppressed_quote :
    ∃ d, Reader.read { ignoreReaderDiscard := true } "'#_x (y #_z)" = .ok d ∧
      ∃ p ∈ (ofDocument d).flatten, ∃ s, (ofDocument d).shape? p = some (.prefixed s 1) := by
  have hread : ∃ d, Reader.read { ignoreReaderDiscard := true } "'#_x (y #_z)" = .ok d ∧
      1 ∈ (ofDocument d).flatten ∧
      (ofDocument d).suppresses { ignoreReaderDiscard := true } 1 = true :=
    ⟨_, rfl, by decide, by decide⟩
  obtain ⟨d, hread, hreached, hsuppressed⟩ := hread
  exact ⟨d, hread, sigil_of_suppressed hread hreached hsuppressed⟩

/-- Neither option keeps the forms it is about out of the tree: a quote takes both. -/
theorem suppressed_under_quote :
    (∃ d, Reader.read { ignoreReaderDiscard := true } "'#_x y" = .ok d ∧
      ∃ i ∈ (ofDocument d).flatten, (ofDocument d).isDiscard i = true) ∧
    (∃ d, Reader.read { ignoreCommentForms := true } "'(comment x)" = .ok d ∧
      ∃ i ∈ (ofDocument d).flatten, (ofDocument d).isCommentForm i = true) :=
  ⟨⟨_, rfl, 1, by decide, by decide⟩, ⟨_, rfl, 2, by decide, by decide⟩⟩

end Tree

end CljFormat
