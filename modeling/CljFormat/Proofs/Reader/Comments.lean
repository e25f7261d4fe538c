/-
CljFormat.Proofs.Reader.Comments — which comments the reader keeps.

Between a sigil and its form, comments are passed over together with line breaks, so they are in no
form. All others are kept, and in their order: `keptComments` reads both off the tokens, and
`comments_of_read` says that these are the comments of the forms.

The invariant is that the comments that a state holds, in its roots and its open brackets, are those
kept of the tokens so far. Whether the next one is kept is decided by the innermost open frame
(`State.hidesComments`), and this frame is a sigil exactly when the last token that was code is one.
-/
import CljFormat.Proofs.Form.Comments
import CljFormat.Proofs.Reader.Extract
import CljFormat.Proofs.Reader.Retell

namespace CljFormat.Reader

variable {σ σ' : State} {t : Token}

/-! ## 1. The comments of a source that are kept -/

/-- Whether tokens of this kind stand in front of a form: the sigils, and `#_`, `#=` and `#^`. -/
def isPrefix (kind : Token.Kind) : Bool :=
  kind == .tilde || opensSigil kind

/-- The texts of the comments that do not stand between a sigil and its form. `hidden` says whether
the last token that was code is a sigil. -/
def keptComments (hidden : Bool) : List Spelling → List String
  | [] => []
  | (.comment, text) :: ts =>
    if hidden then keptComments hidden ts else text :: keptComments hidden ts
  | (.newline, _) :: ts => keptComments hidden ts
  | (kind, _) :: ts => keptComments (isPrefix kind) ts

theorem keptComments_code {s : Spelling} (h : isCode s.1 = true) (hidden : Bool)
    (ts : List Spelling) : keptComments hidden (s :: ts) = keptComments (isPrefix s.1) ts := by
  obtain ⟨kind, text⟩ := s
  cases kind <;> first | rfl | simp [isCode] at h

/-! ## 2. What a state holds -/

theorem keepsCode_everything : Options.everything.KeepsCode := ⟨rfl, rfl⟩

/-- The comments that a state holds. -/
def State.comments (σ : State) : List String :=
  ofState Form.Extract.comments σ

/-- Whether the innermost open frame is a sigil. -/
def underSigil : List Frame → Bool
  | .sigil _ _ :: _ => true
  | _ => false

/-- Whether a comment would be passed over. -/
def State.hidesComments (σ : State) : Bool :=
  match σ.expecting with
  | .form => underSigil σ.enclosing
  | .unquoted _ => true
  | _ => false

theorem comments_push_sigil (s : Sigil) (pos : Position) :
    (σ.push (.sigil s pos)).comments = σ.comments := by
  simp [State.comments, State.push, ofState, ofFrames, Form.Extract.comments]

/-- Opening the sigil of a waiting `~` changes nothing about comments. -/
theorem comments_opened :
    σ.opened.comments = σ.comments ∧ σ.opened.hidesComments = σ.hidesComments := by
  cases hexp : σ.expecting with
  | unquoted pos =>
    have hopened : σ.opened = σ.push (.sigil .unquote pos) := by rw [State.opened, hexp]
    rw [hopened, comments_push_sigil, State.hidesComments, State.hidesComments, hexp]
    exact ⟨rfl, rfl⟩
  | _ =>
    have hopened : σ.opened = σ := by rw [State.opened, hexp]
    rw [hopened]
    exact ⟨rfl, rfl⟩

/-! ## 3. Steps -/

/-- No sigil is open behind a form that is code. -/
theorem hidesComments_deliver {roots : List (Form Label)} {frames : List Frame} {f : Form Label}
    (h : f.isSemantic = true) (next : Nat) :
    (deliver .everything roots next f frames).hidesComments = false := by
  induction frames generalizing f next with
  | nil => rfl
  | cons frame outer ih =>
    cases frame with
    | bracket b pos opened items => rfl
    | sigil s pos =>
      rw [deliver_sigil s pos outer h]
      exact ih rfl _

/-- A line break or a comment is passed over under a sigil, and the sigil stays open. -/
theorem comments_trivia (x : Atom) (pos : Position) (hexp : σ.expecting = .form)
    (h : (Form.atom (Label.mk σ.next pos) x).isSemantic = false) :
    (σ.atom .everything pos x).comments
        = σ.comments ++ (if σ.hidesComments then [] else x.comment?.toList) ∧
      (σ.atom .everything pos x).hidesComments = σ.hidesComments := by
  obtain ⟨frames, expecting, roots, next⟩ := σ
  obtain rfl : expecting = .form := hexp
  match frames with
  | [] =>
    simp [State.atom, deliver, State.comments, ofState, ofFrames, State.hidesComments, underSigil,
      Form.Extract.comments]
  | .bracket b pos opened items :: outer =>
    simp [State.atom, deliver, State.comments, ofState, ofFrames, State.hidesComments, underSigil,
      Form.Extract.comments]
  | .sigil s pos' :: outer =>
    have hpassed : State.atom .everything ⟨.sigil s pos' :: outer, .form, roots, next⟩ pos x
        = ⟨.sigil s pos' :: outer, .form, roots, next + 1⟩ := if_neg (by simp [h])
    rw [hpassed]
    simp [State.comments, ofState, State.hidesComments, underSigil]

theorem isPrefix_eq_false {x : Atom} (hx : Means t x) : isPrefix t.kind = false := by
  cases hx <;> simp [isPrefix, opensSigil, *]

theorem hidesComments_steps (hcode : isCode t.kind = true) (h : Steps .everything σ t σ') :
    σ'.hidesComments = isPrefix t.kind := by
  cases h with
  | atom pos x hx =>
    rw [State.atom, hidesComments_deliver (hx.isSemantic hcode _), isPrefix_eq_false hx]
  | sigil s pos hs =>
    rw [isPrefix, opensSigil_of_sigilOf hs, Bool.or_true]
    rfl
  | bracket b pos opened hkind _ => rw [hkind]; rfl
  | await e he => cases he <;> simp_all [State.expect, State.hidesComments, isPrefix, opensSigil]
  | close b pos opened items outer hkind _ _ => rw [hidesComments_deliver rfl, hkind]; rfl

/-- Code adds no comment to what a state holds. -/
theorem comments_steps (hcode : isCode t.kind = true) (h : Steps .everything σ t σ') :
    σ'.comments = σ.comments := by
  have hatom : ∀ x, Means t x → Form.Extract.comments.ofAtom x = [] := by
    intro x hx
    have hsem := hx.isSemantic hcode ⟨0, .start⟩
    cases x with
    | comment text => simp [Form.isSemantic, Form.shape, Shape.isSemantic, Shape.isComment] at hsem
    | _ => rfl
  have hnone : (sigilOf σ.atTilde t.kind).toList.flatMap Form.Extract.comments.ofSigil = [] := by
    simp [Form.Extract.comments]
  have hstep := ofState_steps _ keepsCode_everything hcode hatom h
  rw [hnone, List.append_nil] at hstep
  exact hstep

/-- One step adds the comment it takes, if that is kept. -/
theorem comments_step (h : σ.step .everything t = .ok σ') (ts : List Spelling) :
    σ'.comments ++ keptComments σ'.hidesComments ts
      = σ.comments ++ keptComments σ.hidesComments (t.spelling :: ts) := by
  obtain ⟨hheld, hhides⟩ := @comments_opened σ
  cases hcode : isCode t.kind with
  | false =>
    obtain ⟨hexp, ⟨hkind, rfl⟩ | ⟨hkind, rfl⟩⟩ := step_trivia hcode h
    · obtain ⟨hcomments, hstays⟩ := comments_trivia (.comment t.text) t.pos hexp rfl
      rw [hcomments, hstays, hheld, hhides, spelling_eq.mpr ⟨hkind, rfl⟩, keptComments]
      cases σ.hidesComments <;> simp [Atom.comment?]
    · obtain ⟨hcomments, hstays⟩ := comments_trivia .newline t.pos hexp rfl
      rw [hcomments, hstays, hheld, hhides, spelling_eq.mpr ⟨hkind, rfl⟩, keptComments]
      cases σ.hidesComments <;> simp [Atom.comment?]
  | true =>
    have hsteps : σ'.comments = σ.comments ∧ σ'.hidesComments = isPrefix t.kind := by
      rcases step_cases h with hsteps | ⟨pos, -, -, hsteps⟩
      · exact ⟨comments_steps hcode hsteps, hidesComments_steps hcode hsteps⟩
      · refine ⟨?_, hidesComments_steps hcode hsteps⟩
        rw [comments_steps hcode hsteps, comments_push_sigil]
    rw [keptComments_code hcode, hsteps.1, hsteps.2]
    rfl

/-! ## 4. Runs -/

/-- A run adds the comments that are kept of its tokens. -/
theorem comments_run {ts : List Token} (h : run .everything σ ts = .ok σ') :
    σ'.comments = σ.comments ++ keptComments σ.hidesComments (ts.map Token.spelling) := by
  induction ts generalizing σ with
  | nil =>
    rw [run_nil] at h
    injection h with h
    simp [h, keptComments]
  | cons t ts ih =>
    obtain ⟨τ, hfirst, hrest⟩ := step_of_run h
    rw [ih hrest, comments_step hfirst]
    rfl

/-- The comments of the forms of a source are those that do not stand between a sigil and its
form. -/
theorem comments_of_read {source : String} {d : Document}
    (h : read .everything source = .ok d) :
    d.roots.flatMap Form.comments = keptComments false (spell source.toList).1 := by
  obtain ⟨σ, hrun, -, -, hclosed, rfl⟩ := read_eq_ok.mp h
  have hcomments := comments_run hrun
  rw [State.comments, ofState, hclosed, ofFrames, List.append_nil] at hcomments
  exact hcomments

example : keptComments false (spell "' ;a\n;b\n(;c\nx)".toList).1 = [";c"] := by decide

end CljFormat.Reader
