/-
CljFormat.Proofs.Reader.Extract — what the reader holds, in document order.

Between two tokens the reader holds a source in pieces: the roots, the items of the open brackets,
and the open sigils. Taken from the outermost to the innermost, they are what was read so far in its
order, so that whatever is listed of them (`Form.Extract`) grows at its end only. A step adds what
its atom or its sigil says (`ofState_steps`), and a form that is complete moves outwards without
changing the list.

This needs options that keep all code: a form that is dropped takes its part of the list with it.
-/
import CljFormat.Proofs.Form.Bare
import CljFormat.Proofs.Reader.Run

namespace CljFormat.Reader

open Form (Extract)

variable {options : Options} {σ σ' : State} {t : Token} {γ : Type} (e : Extract γ)

/-- Whether all code is kept. -/
def Options.KeepsCode (options : Options) : Prop :=
  options.ignoreCommentForms = false ∧ options.ignoreReaderDiscard = false

theorem keeps_of_isSemantic (hoptions : options.KeepsCode) {f : Form Label}
    (h : f.isSemantic = true) : options.keeps f = true := by
  simp [Options.keeps, hoptions.1, hoptions.2, h]

/-! ## 1. What a state holds -/

/-- What is listed of the open frames, outermost first. -/
def ofFrames : List Frame → List γ
  | [] => []
  | .sigil s _ :: outer => ofFrames outer ++ e.ofSigil s
  | .bracket _ _ _ items :: outer => ofFrames outer ++ items.reverse.flatMap e.ofForm

/-- What is listed of a state. -/
def ofState (σ : State) : List γ :=
  σ.roots.reverse.flatMap e.ofForm ++ ofFrames e σ.enclosing

/-- What is listed of a form that is delivered comes last. -/
theorem ofState_deliver (hoptions : options.KeepsCode) {roots : List (Form Label)}
    {frames : List Frame} {f : Form Label} (h : f.isSemantic = true) (next : Nat) :
    ofState e (deliver options roots next f frames)
      = roots.reverse.flatMap e.ofForm ++ ofFrames e frames ++ e.ofForm f := by
  induction frames generalizing f next with
  | nil => simp [deliver, ofState, ofFrames, keeps_of_isSemantic hoptions h]
  | cons frame outer ih =>
    cases frame with
    | bracket b pos opened items =>
      simp [deliver, ofState, ofFrames, keeps_of_isSemantic hoptions h]
    | sigil s pos =>
      rw [deliver, if_pos h, ih rfl, ofFrames, Form.Extract.ofForm_prefixed]
      simp

/-! ## 2. Steps -/

/-- What a token that is code adds, if the atoms it can stand for say nothing. -/
theorem ofState_steps (hoptions : options.KeepsCode) (hcode : isCode t.kind = true)
    (hatom : ∀ x, Means t x → e.ofAtom x = []) (h : Steps options σ t σ') :
    ofState e σ' = ofState e σ ++ (sigilOf σ.atTilde t.kind).toList.flatMap e.ofSigil := by
  cases h with
  | atom pos x hx =>
    rw [State.atom, ofState_deliver e hoptions (hx.isSemantic hcode _), Extract.ofForm_atom,
      hatom x hx, hx.sigilOf_eq_none]
    rfl
  | sigil s pos hs => simp [hs, State.push, ofState, ofFrames]
  | bracket b pos opened hkind _ => simp [hkind, sigilOf, State.push, ofState, ofFrames]
  | await e he =>
    have hnone : sigilOf σ.atTilde t.kind = none := by cases he <;> simp [sigilOf, *]
    rw [hnone]
    exact (List.append_nil _).symm
  | close b pos opened items outer hkind henc _ =>
    rw [ofState_deliver e hoptions rfl, ofState, henc, hkind]
    simp [sigilOf, ofFrames]

end CljFormat.Reader
