/-
CljFormat.Proofs.Reader.Unquotes — which unquotes the reader takes for splices.

A `~` waits for the token behind it and becomes a splice if that is an `@`, whatever it is
otherwise: a line break or a comment also ends the wait. `unquotes` reads this off the tokens, and
`unquotes_of_read` says that these are the unquotes of the forms, in their order.

The invariant counts the `~` that still waits to the tokens to come: what a state holds, followed by
what the rest of the tokens will make, does not change in a step.
-/
import CljFormat.Proofs.Reader.Extract
import CljFormat.Proofs.Token.Spelling

namespace CljFormat

/-- For each unquote, whether it is a splice. -/
def Form.Extract.unquotes : Form.Extract Bool where
  ofAtom _ := []
  ofSigil
    | .unquote => [false]
    | .unquoteSplice => [true]
    | _ => []

namespace Reader

variable {options : Options} {σ σ' : State} {t : Token}

/-! ## 1. The unquotes of a source -/

/-- For each `~`, whether an `@` stands directly behind it. `tilde` says whether a `~` stands
directly before the tokens. -/
def unquotes (tilde : Bool) : List Spelling → List Bool
  | [] => if tilde then [false] else []
  | (kind, _) :: ts => (if tilde then [kind == .atSign] else []) ++ unquotes (kind == .tilde) ts

theorem unquotes_cons (tilde : Bool) (ts : List Token) :
    unquotes tilde ((t :: ts).map Token.spelling)
      = (if tilde then [t.kind == .atSign] else [])
        ++ unquotes (t.kind == .tilde) (ts.map Token.spelling) := rfl

/-! ## 2. Waiting for an `@` -/

@[simp] theorem atTilde_deliver (roots : List (Form Label)) (next : Nat) (f : Form Label)
    (frames : List Frame) : (deliver options roots next f frames).atTilde = false := by
  induction frames generalizing f next with
  | nil => rfl
  | cons frame outer ih =>
    cases frame with
    | bracket b pos opened items => rfl
    | sigil s pos =>
      rw [deliver]
      split
      · exact ih _ _
      · rfl

theorem atTilde_steps (h : Steps options σ t σ') : σ'.atTilde = (t.kind == .tilde) := by
  cases h with
  | atom pos x hx =>
    rw [State.atom, atTilde_deliver]
    cases hx <;> simp [*]
  | sigil s pos hkind =>
    cases hkind' : t.kind <;> first | rfl | simp [hkind', sigilOf] at hkind
  | bracket b pos opened hkind _ => rw [hkind]; rfl
  | await e he => cases he <;> simp [State.expect, State.atTilde, *]
  | close b pos opened items outer hkind _ _ => rw [atTilde_deliver, hkind]; rfl

/-- The reader waits for an `@` behind a `~` and nowhere else. -/
theorem atTilde_step (h : σ.step options t = .ok σ') : σ'.atTilde = (t.kind == .tilde) := by
  rcases step_cases h with hsteps | ⟨pos, -, -, hsteps⟩
  · exact atTilde_steps hsteps
  · exact atTilde_steps hsteps

theorem atTilde_trivia (hcode : isCode t.kind = false) (h : σ.step options t = .ok σ') :
    σ'.atTilde = false := by
  rw [atTilde_step h]
  cases hkind : t.kind <;> first | rfl | simp [hkind, isCode] at hcode

theorem ne_atSign_of_trivia (hcode : isCode t.kind = false) : t.kind ≠ .atSign := by
  rintro hkind
  simp [hkind, isCode] at hcode

/-! ## 3. Steps -/

/-- What is dropped leaves no trace but the identity it took. -/
theorem deliver_dropped (hoptions : options.nonSemantic = false) {f : Form Label}
    (h : f.isSemantic = false) (roots : List (Form Label)) (next : Nat) (frames : List Frame) :
    deliver options roots next f frames = ⟨frames, .form, roots, next⟩ := by
  have hkeeps : options.keeps f = false := by simp [Options.keeps, hoptions, h]
  cases frames with
  | nil => simp [deliver, hkeeps]
  | cons frame outer =>
    cases frame with
    | bracket b pos opened items => simp [deliver, hkeeps]
    | sigil s pos => simp [deliver, h]

/-- A line break or a comment that is dropped opens the sigil of a `~` that waits, and leaves no
other trace but the identity it took. -/
theorem step_dropped (hoptions : options.nonSemantic = false) (hcode : isCode t.kind = false)
    (h : σ.step options t = .ok σ') : σ' = { σ.opened with next := σ.opened.next + 1 } := by
  obtain ⟨hexp, hdelivered⟩ := step_trivia hcode h
  have hatom : ∀ x, (∀ l : Label, (Form.atom l x).isSemantic = false) →
      σ.opened.atom options t.pos x = { σ.opened with next := σ.opened.next + 1 } := by
    intro x hx
    rw [State.atom, deliver_dropped hoptions (hx _), ← hexp]
  rcases hdelivered with ⟨-, rfl⟩ | ⟨-, rfl⟩
  · exact hatom _ fun _ => rfl
  · exact hatom _ fun _ => rfl

/-- The unquotes that a state holds. -/
def State.unquotes (σ : State) : List Bool :=
  ofState Form.Extract.unquotes σ

/-- A `~` that waits becomes an unquote when its sigil is opened. -/
theorem unquotes_opened :
    σ.opened.unquotes = σ.unquotes ++ if σ.atTilde then [false] else [] := by
  obtain ⟨frames, expecting, roots, next⟩ := σ
  cases expecting with
  | unquoted pos =>
    simp [State.opened, State.push, State.unquotes, State.atTilde, ofState, ofFrames,
      Form.Extract.unquotes]
  | _ => exact (List.append_nil _).symm

theorem unquotes_steps (hkeeps : options.KeepsCode) (hcode : isCode t.kind = true)
    (h : Steps options σ t σ') :
    σ'.unquotes
      = σ.unquotes ++ (sigilOf σ.atTilde t.kind).toList.flatMap Form.Extract.unquotes.ofSigil :=
  ofState_steps _ hkeeps hcode (fun _ _ => rfl) h

/-- Only an `@` can make a splice. -/
theorem unquotes_sigilOf {kind : Token.Kind} (h : kind ≠ .atSign) (tilde : Bool) :
    (sigilOf tilde kind).toList.flatMap Form.Extract.unquotes.ofSigil = [] := by
  unfold sigilOf
  split <;> first | rfl | exact absurd rfl h

/-- A step decides about the `~` that waits, and adds nothing else. -/
theorem unquotes_step (hoptions : options.nonSemantic = false) (hkeeps : options.KeepsCode)
    (h : σ.step options t = .ok σ') :
    σ'.unquotes = σ.unquotes ++ if σ.atTilde then [t.kind == .atSign] else [] := by
  cases hcode : isCode t.kind with
  | false =>
    have hat := ne_atSign_of_trivia hcode
    have hopened : σ'.unquotes = σ.opened.unquotes := by rw [step_dropped hoptions hcode h]; rfl
    rw [hopened, unquotes_opened, beq_eq_false_iff_ne.mpr hat]
  | true =>
    by_cases hat : t.kind = .atSign
    · rcases step_cases h with hsteps | ⟨-, -, hne, -⟩
      · rw [unquotes_steps hkeeps hcode hsteps, hat]
        cases σ.atTilde <;> rfl
      · exact absurd hat hne
    · rw [step_opened hat] at h
      rcases step_cases h with hsteps | ⟨pos, hexp, -, -⟩
      · rw [unquotes_steps hkeeps hcode hsteps, unquotes_sigilOf hat, List.append_nil,
          unquotes_opened, beq_eq_false_iff_ne.mpr hat]
      · exact absurd hexp (opened_ne_unquoted pos)

/-! ## 4. Runs -/

theorem unquotes_run (hoptions : options.nonSemantic = false) (hkeeps : options.KeepsCode)
    {ts : List Token} (h : run options σ ts = .ok σ') (htilde : σ'.atTilde = false) :
    σ'.unquotes = σ.unquotes ++ unquotes σ.atTilde (ts.map Token.spelling) := by
  induction ts generalizing σ with
  | nil =>
    rw [run_nil] at h
    injection h with h
    rw [h, List.map_nil, unquotes, htilde]
    exact (List.append_nil _).symm
  | cons t ts ih =>
    obtain ⟨τ, hfirst, hrest⟩ := step_of_run h
    rw [ih hrest, unquotes_step hoptions hkeeps hfirst, unquotes_cons, atTilde_step hfirst,
      List.append_assoc]

/-- The unquotes of the forms of a source are its `~`, and the splices among them those with an `@`
directly behind. -/
theorem unquotes_of_read (hoptions : options.nonSemantic = false) (hkeeps : options.KeepsCode)
    {source : String} {d : Document} (h : read options source = .ok d) :
    d.roots.flatMap Form.Extract.unquotes.ofForm
      = unquotes false ((scan source).tokens.map Token.spelling) := by
  obtain ⟨σ, hrun, -, hexp, hclosed, rfl⟩ := read_eq_ok.mp h
  have hunquotes := unquotes_run hoptions hkeeps hrun (by rw [State.atTilde, hexp])
  rw [State.unquotes, ofState, hclosed, ofFrames, List.append_nil] at hunquotes
  exact hunquotes

example : unquotes false (spell "`(~x ~@y ~;c\n@z)".toList).1 = [false, true, false] := by decide

end Reader

end CljFormat
