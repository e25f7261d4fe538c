/-
CljFormat.Proofs.Reader.Run — runs of the reader.

Reading a source takes its tokens one after another (`run`), and succeeds when the run does, the
scan ends with the source, and nothing is left open (`read_eq_ok`). `run_invariant` is the induction
that every property of the reader's states goes through: what one step keeps, a run keeps.

`step_cases` says once what a step can do: deliver an atom, open a bracket or a sigil, wait for a
particular token, or close the innermost bracket. Behind a `~` that no `@` follows, it does so with
the sigil already open (`State.opened`).

Line breaks and comments are no code, and all that one of them can do is to be delivered, again with
the sigil of a waiting `~` open (`step_trivia`).
-/
import CljFormat.Form.Reader

namespace CljFormat.Reader

variable {options : Options} {σ σ' : State} {t : Token}

/-! ## 1. Runs -/

/-- Takes tokens one after another. -/
def run (options : Options) (σ : State) (ts : List Token) : Except SyntaxError State :=
  ts.foldlM (State.step options) σ

@[simp] theorem run_nil : run options σ [] = .ok σ := rfl

theorem run_cons (ts : List Token) :
    run options σ (t :: ts) = (σ.step options t).bind fun σ => run options σ ts := rfl

theorem run_cons_ok (ts : List Token) (h : σ.step options t = .ok σ') :
    run options σ (t :: ts) = run options σ' ts := by
  rw [run_cons, h]; rfl

theorem run_append (ts us : List Token) :
    run options σ (ts ++ us) = (run options σ ts).bind fun σ => run options σ us := by
  rw [run, List.foldlM_append]; rfl

theorem run_append_ok {ts us : List Token} (h : run options σ ts = .ok σ') :
    run options σ (ts ++ us) = run options σ' us := by
  rw [run_append, h]; rfl

/-- The first step of a run that succeeds. -/
theorem step_of_run {ts : List Token} (h : run options σ (t :: ts) = .ok σ') :
    ∃ τ, σ.step options t = .ok τ ∧ run options τ ts = .ok σ' := by
  rw [run_cons] at h
  cases hstep : σ.step options t with
  | error e => rw [hstep] at h; simp [Except.bind] at h
  | ok τ => rw [hstep] at h; exact ⟨τ, rfl, h⟩

/-- What every step keeps, a run keeps. -/
theorem run_invariant {P : State → Prop} {Q : Token → Prop}
    (hstep : ∀ σ t σ', P σ → Q t → State.step options σ t = .ok σ' → P σ')
    {ts : List Token} (hts : ∀ t ∈ ts, Q t) (hσ : P σ) (h : run options σ ts = .ok σ') : P σ' := by
  induction ts generalizing σ with
  | nil =>
    rw [run_nil] at h
    injection h with h
    exact h ▸ hσ
  | cons t ts ih =>
    obtain ⟨τ, hfirst, hrest⟩ := step_of_run h
    have hτ := hstep σ t τ hσ (hts t List.mem_cons_self) hfirst
    exact ih (fun u hu => hts u (List.mem_cons_of_mem _ hu)) hτ hrest

theorem step_form (h : σ.expecting = .form) : σ.step options t = σ.form options t := by
  rw [State.step, h]

/-- Everything that is delivered is kept. -/
@[simp] theorem keeps_everything {α : Type} (f : Form α) :
    Options.everything.keeps f = true := by
  simp [Options.keeps, Options.everything]

theorem deliver_sigil {roots : List (Form Label)} {next : Nat} {f : Form Label} (s : Sigil)
    (pos : Position) (outer : List Frame) (h : f.isSemantic = true) :
    deliver options roots next f (.sigil s pos :: outer)
      = deliver options roots (next + 1) (.prefixed ⟨next, pos⟩ s f) outer := by
  rw [deliver, if_pos h]

/-! ## 2. Whole sources -/

theorem finish_eq_ok {pos : Position} {d : Document} :
    σ.finish pos = .ok d ↔
      σ.expecting = .form ∧ σ.enclosing = [] ∧ d = ⟨σ.roots.reverse, σ.next⟩ := by
  unfold State.finish
  split
  · next hexp henc => simp [hexp, henc, eq_comm]
  · next hexp henc => simp [refuse, henc]
  · next hother _ =>
    simp only [refuse, reduceCtorEq, false_iff, not_and]
    intro hexp henc
    exact absurd henc (hother hexp)

/-- A source is read when its scan ends with it, every token finds its place, and nothing is left
open. -/
theorem read_eq_ok {source : String} {d : Document} :
    read options source = .ok d ↔
      ∃ σ, run options State.start (scan source).tokens = .ok σ ∧
        (scan source).ending.fault = none ∧ σ.expecting = .form ∧ σ.enclosing = [] ∧
        d = ⟨σ.roots.reverse, σ.next⟩ := by
  unfold read ofScan
  change (run options State.start (scan source).tokens).bind _ = _ ↔ _
  cases hrun : run options State.start (scan source).tokens with
  | error e => simp [Except.bind]
  | ok σ =>
    cases hfault : (scan source).ending.fault with
    | some cause => simp [Except.bind, Scan.Ending.error?, hfault]
    | none =>
      simp only [Except.bind, Scan.Ending.error?, hfault, Option.map_none, finish_eq_ok,
        Except.ok.injEq, true_and, exists_eq_left']

/-- A source is refused at a token that does not fit, else where its scan stops, else because
something is left open at its end. -/
theorem read_eq_error {source : String} {e : SyntaxError} :
    read options source = .error e ↔
      run options State.start (scan source).tokens = .error e ∨
        ∃ σ, run options State.start (scan source).tokens = .ok σ ∧
          ((scan source).ending.error? = some e ∨
            (scan source).ending.fault = none ∧ σ.finish (scan source).ending.pos = .error e) := by
  unfold read ofScan
  change (run options State.start (scan source).tokens).bind _ = _ ↔ _
  cases hrun : run options State.start (scan source).tokens with
  | error e' => simp [Except.bind]
  | ok σ =>
    cases hfault : (scan source).ending.fault with
    | some cause => simp [Except.bind, Scan.Ending.error?, hfault]
    | none => simp [Except.bind, Scan.Ending.error?, hfault]

/-! ## 3. Steps -/

/-- The atoms that a token can stand for, by itself or behind a dispatch. -/
inductive Means (t : Token) : Atom → Prop
  | symbol : t.kind = .symbol → Means t (atomOfSymbol t.text)
  | charLiteral (value : Char) : t.kind = .charLiteral →
      CharLiteral.decode t.text.toList.tail = .ok value → Means t (.character value t.text)
  | comment : t.kind = .comment → Means t (.comment t.text)
  | keyword : t.kind = .keyword → Means t (.keyword t.text)
  | newline : t.kind = .newline → Means t .newline
  | number : t.kind = .number → Means t (.number t.text)
  | string : t.kind = .string → Means t (.string (unquote t.text))
  | regex : t.kind = .string → Means t (.regex (unquote t.text))
  | varQuote : t.kind = .symbol → Means t (.varQuote t.text)
  | tag : t.kind = .symbol → Means t (.tag t.text)

/-- Whether tokens of this kind put a sigil in front of the next form. A `~` does so too, but waits
for the next token first. -/
def opensSigil : Token.Kind → Bool
  | .atSign | .apostrophe | .backtick | .circumflex => true
  | .dispatch .discard | .dispatch .eval | .dispatch .metadata => true
  | _ => false

/-- The sigil that a token of this kind puts in front of the next form, directly behind a `~` or
not. -/
def sigilOf (tilde : Bool) : Token.Kind → Option Sigil
  | .atSign => some (if tilde then .unquoteSplice else .deref)
  | .apostrophe => some .quote
  | .backtick => some .syntaxQuote
  | .circumflex | .dispatch .metadata => some .metadata
  | .dispatch .discard => some .readerDiscard
  | .dispatch .eval => some .readerEval
  | _ => none

theorem opensSigil_of_sigilOf {tilde : Bool} {kind : Token.Kind} {s : Sigil}
    (h : sigilOf tilde kind = some s) : opensSigil kind = true := by
  unfold sigilOf at h
  split at h <;> first | rfl | simp at h

/-- Whether the last token is a `~` that may become a splice. -/
def State.atTilde (σ : State) : Bool :=
  match σ.expecting with
  | .unquoted _ => true
  | _ => false

/-- What the reader waits for once it has taken `t`. -/
inductive Awaits (σ : State) (t : Token) : Expecting → Prop
  | fnLiteral (pos : Position) : t.kind = .dispatch .fnLiteral → σ.insideFnLiteral = false →
      Awaits σ t (.opener .fnLiteral pos)
  | set (pos : Position) : t.kind = .dispatch .set → Awaits σ t (.opener .set pos)
  | readerCond (pos : Position) : t.kind = .dispatch .readerCond →
      Awaits σ t (.opener .readerCond pos)
  | readerCondSplice (pos : Position) : t.kind = .dispatch .readerCondSplice →
      Awaits σ t (.opener .readerCondSplice pos)
  | map (pos : Position) : t.kind = .keyword → Awaits σ t (.opener (.map (some t.text)) pos)
  | namespaceName (pos : Position) : t.kind = .dispatch .namespacedMap →
      Awaits σ t (.namespaceName pos)
  | regex (pos : Position) : t.kind = .dispatch .regex → Awaits σ t (.regex pos)
  | varName (pos : Position) : t.kind = .dispatch .varQuote → Awaits σ t (.varName pos)
  | tagName (pos : Position) : t.kind = .octothorpe → Awaits σ t (.tagName pos)
  | unquoted (pos : Position) : t.kind = .tilde → Awaits σ t (.unquoted pos)

/-- What taking a token can do. -/
inductive Steps (options : Options) (σ : State) (t : Token) : State → Prop
  | atom (pos : Position) (x : Atom) : Means t x → Steps options σ t (σ.atom options pos x)
  | sigil (s : Sigil) (pos : Position) : sigilOf σ.atTilde t.kind = some s →
      Steps options σ t (σ.push (.sigil s pos))
  | bracket (b : Bracket) (pos opened : Position) : t.kind = .opening (closerOf b) →
      (σ.expecting = .opener b pos ∨ b ∈ [.list, .vector, .map none]) →
      Steps options σ t (σ.push (.bracket b pos opened []))
  | await (e : Expecting) : Awaits σ t e → Steps options σ t (σ.expect e)
  | close (b : Bracket) (pos opened : Position) (items : List (Form Label)) (outer : List Frame) :
      t.kind = .closing (closerOf b) → σ.enclosing = .bracket b pos opened items :: outer →
      (∀ ns, b = .map ns → items.countP Form.isPaired % 2 = 0) →
      Steps options σ t
        (deliver options σ.roots (σ.next + 1) (.seq ⟨σ.next, pos⟩ b items.reverse) outer)

theorem steps_of_dispatch {d : Dispatch} (hkind : t.kind = .dispatch d)
    (h : σ.dispatch t.pos d = .ok σ') : Steps options σ t σ' := by
  cases d with
  | fnLiteral =>
    simp only [State.dispatch] at h
    split at h
    · simp [refuse] at h
    · next hinside =>
      injection h with h
      exact h ▸ .await _ (.fnLiteral _ hkind (by simpa using hinside))
  | set => injection h with h; exact h ▸ .await _ (.set _ hkind)
  | readerCond => injection h with h; exact h ▸ .await _ (.readerCond _ hkind)
  | readerCondSplice => injection h with h; exact h ▸ .await _ (.readerCondSplice _ hkind)
  | namespacedMap => injection h with h; exact h ▸ .await _ (.namespaceName _ hkind)
  | regex => injection h with h; exact h ▸ .await _ (.regex _ hkind)
  | varQuote => injection h with h; exact h ▸ .await _ (.varName _ hkind)
  | discard => injection h with h; exact h ▸ .sigil _ _ (by rw [hkind]; rfl)
  | eval => injection h with h; exact h ▸ .sigil _ _ (by rw [hkind]; rfl)
  | metadata => injection h with h; exact h ▸ .sigil _ _ (by rw [hkind]; rfl)

/-- A closing delimiter completes the innermost bracket. -/
theorem close_cases {d : Delimiter} (h : σ.close options d t = .ok σ') :
    ∃ b pos opened items outer, σ.enclosing = .bracket b pos opened items :: outer ∧
      closerOf b = d ∧ (∀ ns, b = .map ns → items.countP Form.isPaired % 2 = 0) ∧
      σ' = deliver options σ.roots (σ.next + 1) (.seq ⟨σ.next, pos⟩ b items.reverse) outer := by
  unfold State.close at h
  split at h
  · next b pos opened items outer henc =>
    split at h
    · simp [unexpected, refuse] at h
    · next hcloser =>
      have hd : closerOf b = d := by simpa using hcloser
      refine ⟨b, pos, opened, items, outer, henc, hd, ?_⟩
      cases b with
      | map ns =>
        simp only [List.countP_reverse, Bool.true_and, decide_eq_true_eq] at h
        split at h
        · simp [refuse] at h
        · next hodd =>
          injection h with h
          exact ⟨fun _ _ => by omega, h.symm⟩
      | _ =>
        injection h with h
        exact ⟨fun _ hmap => absurd hmap (by simp), h.symm⟩
  · simp [unexpected, refuse] at h

theorem steps_of_close {d : Delimiter} (hkind : t.kind = .closing d)
    (h : σ.close options d t = .ok σ') : Steps options σ t σ' := by
  obtain ⟨b, pos, opened, items, outer, henc, rfl, heven, rfl⟩ := close_cases h
  exact .close b pos opened items outer hkind henc heven

theorem steps_of_form (htilde : σ.atTilde = false) (h : σ.form options t = .ok σ') :
    Steps options σ t σ' := by
  unfold State.form at h
  split at h
  case h_1 hkind => injection h with h; exact h ▸ .atom _ _ (.symbol hkind)
  case h_2 hkind =>
    split at h
    · next value hvalue => injection h with h; exact h ▸ .atom _ _ (.charLiteral value hkind hvalue)
    · simp [refuse] at h
  case h_3 hkind => injection h with h; exact h ▸ .atom _ _ (.comment hkind)
  case h_4 hkind => injection h with h; exact h ▸ .atom _ _ (.keyword hkind)
  case h_5 hkind => injection h with h; exact h ▸ .atom _ _ (.newline hkind)
  case h_6 hkind => injection h with h; exact h ▸ .atom _ _ (.number hkind)
  case h_7 hkind => injection h with h; exact h ▸ .atom _ _ (.string hkind)
  case h_8 hkind => injection h with h; exact h ▸ .bracket _ _ _ hkind (.inr (by simp))
  case h_9 hkind => injection h with h; exact h ▸ .bracket _ _ _ hkind (.inr (by simp))
  case h_10 hkind => injection h with h; exact h ▸ .bracket _ _ _ hkind (.inr (by simp))
  case h_11 hkind => exact steps_of_close hkind h
  case h_12 hkind => injection h with h; exact h ▸ .sigil _ _ (by rw [hkind, htilde]; rfl)
  case h_13 hkind => injection h with h; exact h ▸ .sigil _ _ (by rw [hkind]; rfl)
  case h_14 hkind => injection h with h; exact h ▸ .sigil _ _ (by rw [hkind]; rfl)
  case h_15 hkind => injection h with h; exact h ▸ .sigil _ _ (by rw [hkind]; rfl)
  case h_16 hkind => injection h with h; exact h ▸ .await _ (.unquoted _ hkind)
  case h_17 hkind => injection h with h; exact h ▸ .await _ (.tagName _ hkind)
  case h_18 hkind => exact steps_of_dispatch hkind h

/-- A step does one of these things, possibly behind a `~` whose sigil it opens first. -/
theorem step_cases (h : σ.step options t = .ok σ') :
    Steps options σ t σ' ∨
      ∃ pos, σ.expecting = .unquoted pos ∧ t.kind ≠ .atSign ∧
        Steps options (σ.push (.sigil .unquote pos)) t σ' := by
  unfold State.step at h
  split at h
  case h_1 hexp => exact .inl (steps_of_form (by rw [State.atTilde, hexp]) h)
  case h_2 b pos hexp =>
    left
    unfold State.opener at h
    split at h
    · next hkind => injection h with h; exact h ▸ .bracket _ _ _ hkind (.inl hexp)
    · split at h <;> simp [unexpected, refuse] at h
  case h_3 =>
    left
    split at h
    · next hkind => injection h with h; exact h ▸ .atom _ _ (.regex hkind)
    · simp [unexpected, refuse] at h
  case h_4 =>
    left
    split at h
    · next hkind => injection h with h; exact h ▸ .atom _ _ (.varQuote hkind)
    · simp [unexpected, refuse] at h
  case h_5 =>
    left
    split at h
    · next hkind => injection h with h; exact h ▸ .atom _ _ (.tag hkind)
    · simp [unexpected, refuse] at h
  case h_6 =>
    left
    split at h
    · next hkind => injection h with h; exact h ▸ .await _ (.map _ hkind)
    · simp [unexpected, refuse] at h
  case h_7 pos hexp =>
    split at h
    · next hkind =>
      injection h with h
      exact .inl (h ▸ .sigil _ _ (by rw [hkind, State.atTilde, hexp]; rfl))
    · next hkind => exact .inr ⟨pos, hexp, hkind, steps_of_form rfl h⟩

/-! ## 4. Line breaks and comments -/

/-- Whether tokens of this kind are code: neither comments nor line breaks. -/
def isCode : Token.Kind → Bool
  | .comment | .newline => false
  | _ => true

/-- What a token that is code stands for is code. -/
theorem Means.isSemantic {x : Atom} (hx : Means t x) (hcode : isCode t.kind = true) (l : Label) :
    (Form.atom l x).isSemantic = true := by
  cases hx with
  | symbol hkind =>
    unfold atomOfSymbol
    split
    · rfl
    · split
      · rfl
      · split <;> rfl
  | comment hkind => simp [hkind, isCode] at hcode
  | newline hkind => simp [hkind, isCode] at hcode
  | _ => rfl

/-- A token that stands for an atom opens no sigil. -/
theorem Means.sigilOf_eq_none {x : Atom} (hx : Means t x) (tilde : Bool) :
    sigilOf tilde t.kind = none := by
  cases hx <;> simp [sigilOf, *]

/-- The state in which the sigil of a `~` that still waits is open. -/
def State.opened (σ : State) : State :=
  match σ.expecting with
  | .unquoted pos => σ.push (.sigil .unquote pos)
  | _ => σ

theorem opened_ne_unquoted (pos : Position) : σ.opened.expecting ≠ .unquoted pos := by
  obtain ⟨frames, expecting, roots, next⟩ := σ
  cases expecting <;> simp [State.opened, State.push]

/-- Only an `@` makes anything else of a `~`. -/
theorem step_opened (h : t.kind ≠ .atSign) : σ.step options t = σ.opened.step options t := by
  obtain ⟨frames, expecting, roots, next⟩ := σ
  cases expecting with
  | unquoted pos => exact if_neg h
  | _ => rfl

/-- A line break or a comment is delivered where a form may stand. -/
theorem step_trivia (hcode : isCode t.kind = false) (h : σ.step options t = .ok σ') :
    σ.opened.expecting = .form ∧
      (t.kind = .comment ∧ σ' = σ.opened.atom options t.pos (.comment t.text) ∨
        t.kind = .newline ∧ σ' = σ.opened.atom options t.pos .newline) := by
  have hkind : t.kind = .comment ∨ t.kind = .newline := by
    cases hkind : t.kind <;> simp_all [isCode]
  have hdelivered : ∀ τ : State, τ.form options t = .ok σ' →
      t.kind = .comment ∧ σ' = τ.atom options t.pos (.comment t.text) ∨
        t.kind = .newline ∧ σ' = τ.atom options t.pos .newline := by
    intro τ h
    rcases hkind with hkind | hkind
    · simp only [State.form, hkind, Except.ok.injEq] at h
      exact .inl ⟨hkind, h.symm⟩
    · simp only [State.form, hkind, Except.ok.injEq] at h
      exact .inr ⟨hkind, h.symm⟩
  have hat : t.kind ≠ .atSign := by rcases hkind with hkind | hkind <;> simp [hkind]
  rw [step_opened hat] at h
  cases hexp : σ.opened.expecting with
  | form =>
    rw [State.step, hexp] at h
    exact ⟨rfl, hdelivered _ h⟩
  | unquoted pos => exact absurd hexp (opened_ne_unquoted pos)
  | opener b pos =>
    rw [State.step, hexp] at h
    rcases hkind with hkind | hkind <;> cases b <;>
      simp [State.opener, hkind, unexpected, refuse] at h
  | _ =>
    rw [State.step, hexp] at h
    rcases hkind with hkind | hkind <;> simp [hkind, unexpected, refuse] at h

end CljFormat.Reader
