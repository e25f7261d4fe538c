/-
CljFormat.Proofs.Reader.Join — sources on lines of their own are read one after the other.

Once a source is read, nothing is open and nothing is waited for. So behind the line break that ends
it, another source is read as it is read alone, to forms in other places and with other identities
(`read_append_newline`).
-/
import CljFormat.Proofs.Reader.Code
import CljFormat.Proofs.Reader.Derivation
import CljFormat.Proofs.Token.Join

namespace CljFormat.Reader

variable {options : Options} {σ τ : State}

/-- What comes of a run does not depend on places. -/
theorem outcome_run (h : σ.bare = τ.bare) {ts us : List Token}
    (hts : ts.map Token.spelling = us.map Token.spelling) :
    outcome (run options σ ts) = outcome (run options τ us) := by
  induction ts generalizing σ τ us with
  | nil =>
    obtain rfl : us = [] := by simpa using hts.symm
    exact congrArg some h
  | cons t ts ih =>
    obtain ⟨u, us, rfl, hu, hus⟩ := List.map_eq_cons_iff.mp hts.symm
    have hstep := @outcome_step options σ τ t u h hu.symm
    rw [run_cons, run_cons]
    cases hσ : σ.step options t with
    | error e =>
      cases hτ : τ.step options u with
      | error e' => rfl
      | ok τ' =>
        rw [hσ, hτ] at hstep
        simp [outcome, Except.toOption] at hstep
    | ok σ' =>
      cases hτ : τ.step options u with
      | error e =>
        rw [hσ, hτ] at hstep
        simp [outcome, Except.toOption] at hstep
      | ok τ' =>
        rw [hσ, hτ] at hstep
        exact ih (Option.some.inj hstep) hus.symm

/-- The state behind a line break, where nothing is open. -/
theorem step_newline {t : Token} (ht : t.kind = .newline) (hexp : σ.expecting = .form)
    (henc : σ.enclosing = []) :
    σ.step .everything t
      = .ok ⟨[], .form, .atom ⟨σ.next, t.pos⟩ .newline :: σ.roots, σ.next + 1⟩ := by
  rw [step_form hexp, State.form, ht]
  simp [State.atom, henc, deliver]

/-- Where nothing is open, tokens that spell a source are read as its forms. -/
theorem run_respelled {ts us : List Token} {fs : List (Form Position)}
    (h : DerivesAll false ts fs) (hspelling : us.map Token.spelling = ts.map Token.spelling)
    (hexp : σ.expecting = .form) (henc : σ.enclosing = []) :
    ∃ τ, run .everything σ us = .ok τ ∧ τ.expecting = .form ∧ τ.enclosing = [] ∧
      τ.roots.map Form.bare = (fs.map Form.bare).reverse ++ σ.roots.map Form.bare := by
  obtain ⟨gs, n, rfl, hrun⟩ := run_of_derivesAll h σ hexp (by rw [henc]; rfl) (by simp [henc])
  have hsame : σ.bare = σ.bare := rfl
  have houtcome := @outcome_run .everything σ σ hsame us ts hspelling
  rw [hrun] at houtcome
  cases hτ : run .everything σ us with
  | error e =>
    rw [hτ] at houtcome
    simp [outcome, Except.toOption] at houtcome
  | ok τ =>
    rw [hτ] at houtcome
    obtain ⟨hframes, hwaits, hroots⟩ := bare_eq_iff.mp (Option.some.inj houtcome)
    rw [holding_expecting] at hwaits
    simp only [State.holding, henc] at hframes hroots
    refine ⟨τ, rfl, ?_, List.map_eq_nil_iff.mp hframes, ?_⟩
    · cases hτ' : τ.expecting <;> rw [hτ'] at hwaits <;> simp [Expecting.bare] at hwaits
    · simp [hroots, Function.comp_def]

/-- A source, a line break and another source are read as the forms of the first, the line break,
and the forms of the second. -/
theorem read_append_newline {a b : String} {da db : Document} (ha : read .everything a = .ok da)
    (hb : read .everything b = .ok db) :
    ∃ d, read .everything (a ++ "\n" ++ b) = .ok d ∧
      d.roots.map Form.bare
        = da.roots.map Form.bare ++ .atom () .newline :: db.roots.map Form.bare := by
  obtain ⟨σ, hrun, hfault, hexp, henc, rfl⟩ := read_eq_ok.mp ha
  obtain ⟨hcomplete, hderives⟩ := derives_of_read hb
  obtain ⟨t, ts, ht, htokens, hspelling, hending⟩ := scan_append_newline hfault b
  have hnewline := step_newline ht hexp henc
  obtain ⟨τ, hlater, hexp', henc', hroots⟩ := @run_respelled
    ⟨[], .form, .atom ⟨σ.next, t.pos⟩ .newline :: σ.roots, σ.next + 1⟩ _ _ _ hderives hspelling
    rfl rfl
  refine ⟨⟨τ.roots.reverse, τ.next⟩, read_eq_ok.mpr ⟨τ, ?_, ?_, hexp', henc', rfl⟩, ?_⟩
  · rw [htokens, run_append_ok hrun, run_cons_ok ts hnewline, hlater]
  · rw [hending, (complete_eq_ok.mp hcomplete).1]
  · simp [hroots, Function.comp_def]

end CljFormat.Reader
