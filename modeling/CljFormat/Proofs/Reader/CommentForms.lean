/-
CljFormat.Proofs.Reader.CommentForms — what is dropped as a `(comment …)` form.

A list is dropped for its first item, and if line breaks and comments are kept, one of them may be
the first item. So `(⏎ comment x)` is a `(comment …)` form when it is read without line breaks, and
none when it is read with them.

Hence reading a source without its line breaks and comments drops more than these: it also drops the
lists that show as `(comment …)` forms once they are gone, inner lists first (`sifts_isLive`). The
two readings give the same code exactly if no list does (`siftAll_isLive_iff`). They fail alike but
for maps: a list that is dropped is no key or value any more, and may leave a map with an odd number
of them (`read_commentForms`).
-/
import CljFormat.Proofs.Reader.Code
import CljFormat.Proofs.Reader.CodeOnly
import CljFormat.Proofs.Tidy

namespace CljFormat

open Transform (Everywhere everywhere_atom everywhere_prefixed everywhere_seq)

namespace Form

variable {α : Type} {f : Form α} {fs : List (Form Label)}

/-! ## 1. Code that is live -/

/-- Code that is no `(comment …)` form. -/
def isLive (f : Form α) : Bool :=
  f.isSemantic && !f.isCallOf "comment"

/-- Whether a form is a `(comment …)` form once the line breaks and comments in it are gone. -/
def showsComment (f : Form α) : Bool :=
  f.codeOnly.isCallOf "comment"

/-- The items of every sequence below a form are no `(comment …)` forms, even without line breaks
and comments. -/
def ShowsNone (f : Form α) : Prop :=
  Everywhere (fun _ items => ∀ g ∈ items, g.showsComment = false) f

/-- A `(comment …)` form is one still when it is sifted: its first item is live. -/
theorem isCallOf_sift (h : f.isCallOf "comment" = true) :
    (f.sift isLive).isCallOf "comment" = true := by
  obtain ⟨note, k, rest, rfl⟩ := isCallOf_iff.mp h
  exact isCallOf_iff.mpr ⟨note, k, siftAll isLive rest, rfl⟩

/-- Only line breaks and comments, which have no parts, are not code. -/
theorem eq_atom_of_not_isSemantic (h : f.isSemantic = false) : ∃ note x, f = .atom note x := by
  cases f with
  | atom note x => exact ⟨note, x, rfl⟩
  | _ => exact absurd h (by simp [isSemantic, Shape.isSemantic, shape, Shape.isNewline,
      Shape.isComment])

theorem length_siftAll_isLive_le : (siftAll isLive fs).length ≤ (codeOnlyAll fs).length := by
  have hsemantic : ∀ f : Form Label, isLive f = true → f.isSemantic = true := by
    intro f hf
    exact (Bool.and_eq_true _ _ ▸ hf).1
  rw [← siftAll_isSemantic, siftAll_eq_filter, siftAll_eq_filter, List.filter_map, List.filter_map,
    List.length_map, List.length_map]
  refine (List.monotone_filter_right fs fun f hf => ?_).length_le
  simpa using hsemantic _ hf

/-- If the live code of each form is its code just in case nothing in it shows, then so for all of
them together, unless one of them shows itself. -/
theorem siftAll_isLive_iff_of
    (h : ∀ f ∈ fs, (f.sift isLive).bare = f.codeOnly.bare ↔ f.ShowsNone) :
    (siftAll isLive fs).map bare = (codeOnlyAll fs).map bare ↔
      (∀ f ∈ fs, f.showsComment = false) ∧ ∀ f ∈ fs, f.ShowsNone := by
  induction fs with
  | nil => simp [siftAll, codeOnlyAll]
  | cons f fs ih =>
    rw [List.forall_mem_cons] at h
    obtain ⟨hf, hfs⟩ := h
    have hrest := ih hfs
    simp only [List.forall_mem_cons]
    cases hsem : f.isSemantic with
    | false =>
      obtain ⟨note, x, rfl⟩ := eq_atom_of_not_isSemantic hsem
      have hlive : isLive (sift isLive (.atom note x)) = false := by simp [isLive, hsem]
      have hnone : (atom note x).showsComment = false := rfl
      simp [siftAll, codeOnlyAll, hlive, hsem, hrest, hnone, hf.mp rfl]
    | true =>
      have hcall : (f.sift isLive).bare = f.codeOnly.bare →
          (f.sift isLive).isCallOf "comment" = f.showsComment := by
        intro hbare
        rw [showsComment, ← Reader.isCallOf_bare, hbare, Reader.isCallOf_bare]
      cases hdropped : (f.sift isLive).isCallOf "comment" with
      | false =>
        have hlive : isLive (f.sift isLive) = true := by simp [isLive, hsem, hdropped]
        simp only [siftAll, codeOnlyAll, hlive, hsem, if_true, List.map_cons, List.cons.injEq, hf,
          hrest]
        constructor
        · rintro ⟨hnone, hself, hbelow⟩
          exact ⟨⟨hcall (hf.mpr hnone) ▸ hdropped, hself⟩, hnone, hbelow⟩
        · rintro ⟨⟨-, hself⟩, hnone, hbelow⟩
          exact ⟨hnone, hself, hbelow⟩
      | true =>
        have hlive : isLive (f.sift isLive) = false := by simp [isLive, hdropped]
        refine iff_of_false (fun heq => ?_) ?_
        · -- One form of code less is kept.
          have hlength := congrArg List.length heq
          have hle := @length_siftAll_isLive_le fs
          simp [siftAll, codeOnlyAll, hlive, hsem] at hlength
          omega
        · rintro ⟨⟨hshows, -⟩, hnone, -⟩
          rw [← hcall (hf.mpr hnone), hdropped] at hshows
          exact absurd hshows (by simp)

/-- The live code of a form is its code exactly if nothing in it shows as a `(comment …)` form. -/
theorem sift_isLive_iff (f : Form Label) :
    (f.sift isLive).bare = f.codeOnly.bare ↔ f.ShowsNone := by
  induction f using Form.induct with
  | atom note x => exact iff_of_true rfl everywhere_atom
  | prefixed note s body ih =>
    rw [ShowsNone, everywhere_prefixed, ← ShowsNone, ← ih]
    simp [sift, codeOnly]
  | seq note b items ih =>
    rw [ShowsNone, everywhere_seq, sift, codeOnly]
    simpa [ShowsNone] using siftAll_isLive_iff_of ih

theorem siftAll_isLive_iff :
    (siftAll isLive fs).map bare = (codeOnlyAll fs).map bare ↔
      (∀ f ∈ fs, f.showsComment = false) ∧ ∀ f ∈ fs, f.ShowsNone :=
  siftAll_isLive_iff_of fun f _ => sift_isLive_iff f

end Form

namespace Reader

/-! ## 2. Sources -/

/-- Without line breaks and comments, and without `(comment …)` forms, just the live code is kept of
what is kept with line breaks and comments. -/
theorem sifts_isLive (discards : Bool) :
    Sifts { nonSemantic := true, ignoreCommentForms := true, ignoreReaderDiscard := discards }
      { nonSemantic := false, ignoreCommentForms := true, ignoreReaderDiscard := discards }
      Form.isLive := by
  intro f
  have hcall := @Form.isCallOf_sift _ f
  have hcode := @Form.isSemantic_sift _ Form.isLive f
  cases hf : f.isCallOf "comment" with
  | true => simp [Options.keeps, Form.isLive, hf, hcall hf]
  | false =>
    cases f with
    | prefixed l s body => cases s <;> grind [Options.keeps, Form.isLive, Form.sift, Form.shape]
    | _ => grind [Options.keeps, Form.isLive, Form.sift, Form.shape]

/-- Both readings of a source drop `(comment …)` forms. If both succeed, the one without line breaks
and comments gives the live code of what the other one gives, which is its code exactly if no root
and no item shows as a `(comment …)` form. If just one of them fails, it refuses a map that has lost
an odd number of keys and values in this way, or that has them still. -/
theorem read_commentForms (discards : Bool) (source : String) :
    let kept : Options :=
      { nonSemantic := true, ignoreCommentForms := true, ignoreReaderDiscard := discards }
    let dropped : Options :=
      { nonSemantic := false, ignoreCommentForms := true, ignoreReaderDiscard := discards }
    (∀ d d', read kept source = .ok d → read dropped source = .ok d' →
      d' = d.sift Form.isLive ∧
        (d'.roots.map Form.bare = d.codeOnly.roots.map Form.bare ↔
          (∀ f ∈ d.roots, f.showsComment = false) ∧ ∀ f ∈ d.roots, f.ShowsNone)) ∧
    ∀ e d, (read kept source = .error e ∧ read dropped source = .ok d ∨
        read dropped source = .error e ∧ read kept source = .ok d) →
      ∃ pos, e = ⟨pos, .read .oddMap⟩ ∧
        UnpairsAmong kept Form.isLive .start (scan source).tokens pos := by
  intro kept dropped
  have hsift : read dropped source = (read kept source).map (Document.sift Form.isLive) ∨
      ∃ pos, UnpairsAmong kept Form.isLive .start (scan source).tokens pos ∧
        (read kept source = refuse pos .oddMap ∨ read dropped source = refuse pos .oddMap) :=
    ofScan_sift (sifts_isLive discards) (scan source)
  constructor
  · intro d d' hkept hdropped
    rw [hkept, hdropped] at hsift
    obtain rfl : d' = d.sift Form.isLive := by simpa [Except.map, refuse] using hsift
    exact ⟨rfl, Form.siftAll_isLive_iff⟩
  · rintro e d (⟨hfails, hreads⟩ | ⟨hfails, hreads⟩) <;> rw [hfails, hreads] at hsift <;>
      simpa [Except.map, refuse, and_comm] using hsift

/-- The list `(⏎ comment x)` shows as a `(comment …)` form without its line break. -/
theorem read_commentForms_line_break :
    ∃ d d', read { nonSemantic := true, ignoreCommentForms := true } "(\ncomment x) y" = .ok d ∧
      read { nonSemantic := false, ignoreCommentForms := true } "(\ncomment x) y" = .ok d' ∧
      d' = d.sift Form.isLive ∧
      d'.roots.map Form.bare ≠ d.codeOnly.roots.map Form.bare := by
  have hread : ∃ d d',
      read { nonSemantic := true, ignoreCommentForms := true } "(\ncomment x) y" = .ok d ∧
      read { nonSemantic := false, ignoreCommentForms := true } "(\ncomment x) y" = .ok d' ∧
      ∃ f ∈ d.roots, f.showsComment = true :=
    ⟨_, _, rfl, rfl, _, List.mem_cons_self, rfl⟩
  obtain ⟨d, d', hkept, hdropped, f, hf, hshows⟩ := hread
  obtain ⟨hsift, hiff⟩ := (read_commentForms false "(\ncomment x) y").1 d d' hkept hdropped
  refine ⟨d, d', hkept, hdropped, hsift, fun hsame => ?_⟩
  rw [(hiff.mp hsame).1 f hf] at hshows
  exact absurd hshows (by simp)

/-- With line breaks the list `(⏎ comment x)` is kept, and without them it is dropped. In a map this
makes the difference between a source that can be read and one that cannot. -/
theorem commentForm_behind_line_break :
    (∃ d d', read { nonSemantic := true, ignoreCommentForms := true } "(\ncomment x) y" = .ok d ∧
      read { nonSemantic := false, ignoreCommentForms := true } "(\ncomment x) y" = .ok d' ∧
      d.codeOnly.roots.length = 2 ∧ d'.roots.length = 1) ∧
    (∃ d e, read { nonSemantic := true, ignoreCommentForms := true } "\x7b(\ncomment) 1\x7d" = .ok d ∧
      read { nonSemantic := false, ignoreCommentForms := true } "\x7b(\ncomment) 1\x7d" = .error e) :=
  ⟨⟨_, _, rfl, rfl, rfl, rfl⟩, _, _, rfl, rfl⟩

end Reader

end CljFormat
