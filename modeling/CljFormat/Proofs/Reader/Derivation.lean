/-
CljFormat.Proofs.Reader.Derivation — the reader accepts exactly the grammar.

What the reader has taken falls into the forms it has delivered, the frames that are open with what
was delivered to each, and the tokens of a form it has only begun (`State.Derived`). Every step
keeps it so (`derived_step`), and at the end, with nothing open and nothing begun, only the
delivered forms are left: the tokens are derived, as these forms. Together with `run_of_derives`,
which goes the other way, a source is read as `fs` if and only if it scans to its end and its tokens
are derived as `fs` (`read_iff_derives`).

A `~` is a sigil of its own only if no `@` follows, so what an open frame says of the tokens taken
so far depends on a token to come. `Spans` therefore also speaks of all tokens that are left.
-/
import CljFormat.Proofs.Reader.Grammar

namespace CljFormat.Reader

variable {inside : Bool} {σ σ' : State} {t u : Token} {ts us done rest next : List Token}
  {frames outer : List Frame} {roots items : List (Form Label)} {b : Bracket} {s : Sigil}
  {pos opened : Position}

/-! ## 1. Small facts about derivations -/

theorem DerivesAll.snoc {f : Form Position} {fs : List (Form Position)}
    (h : DerivesAll inside ts fs) (hf : Derives inside us f) :
    DerivesAll inside (ts ++ us) (fs ++ [f]) := by
  induction fs generalizing ts with
  | nil =>
    cases h
    simpa using DerivesAll.cons hf .nil
  | cons g fs ih =>
    cases h with
    | cons hg hgs => simpa using DerivesAll.cons hg (ih hgs)

/-- Only the next token matters to what a sigil is. -/
theorem SigilTokens.congr {next' : List Token} (h : SigilTokens next t ts s)
    (hhead : next'.head? = next.head?) : SigilTokens next' t ts s := by
  cases h with
  | quote ht => exact .quote ht
  | syntaxQuote ht => exact .syntaxQuote ht
  | deref ht => exact .deref ht
  | metadata ht => exact .metadata ht
  | readerDiscard ht => exact .readerDiscard ht
  | readerEval ht => exact .readerEval ht
  | unquoteSplice ht hu => exact .unquoteSplice ht hu
  | unquote ht hnext => exact .unquote ht (hhead ▸ hnext)

/-- What is no code is one token, a comment or a line break. -/
theorem Derives.trivia {f : Form Position} (h : Derives inside ts f)
    (hsem : f.isSemantic = false) : ∃ u, ts = [u] ∧ isCode u.kind = false := by
  cases h with
  | @atom _ t ts x hatom =>
    cases hatom with
    | comment ht => exact ⟨t, rfl, by rw [ht]; rfl⟩
    | newline ht => exact ⟨t, rfl, by rw [ht]; rfl⟩
    | symbol ht =>
      have hcode := (Means.symbol ht).isSemantic (by rw [ht]; rfl) ⟨0, t.pos⟩
      rw [← Form.isSemantic_located, Form.located_atom, hsem] at hcode
      exact absurd hcode (by decide)
    | _ => exact Bool.noConfusion hsem
  | prefixed => exact Bool.noConfusion hsem
  | seq => exact Bool.noConfusion hsem

/-! ## 2. What the reader has taken -/

/-- The tokens `ts` begin a form that goes on with what is expected. -/
inductive Begun (inside : Bool) : (ts : List Token) → Expecting → Prop
  | form : Begun inside [] .form
  | opener {t : Token} {ts : List Token} {b : Bracket} :
      (∀ u, u.kind = .opening (closerOf b) → OpeningTokens inside t (ts ++ [u]) b) →
      Begun inside (t :: ts) (.opener b t.pos)
  | regex {t : Token} : t.kind = .dispatch .regex → Begun inside [t] (.regex t.pos)
  | varName {t : Token} : t.kind = .dispatch .varQuote → Begun inside [t] (.varName t.pos)
  | tagName {t : Token} : t.kind = .octothorpe → Begun inside [t] (.tagName t.pos)
  | namespaceName {t : Token} : t.kind = .dispatch .namespacedMap →
      Begun inside [t] (.namespaceName t.pos)
  | unquoted {t : Token} : t.kind = .tilde → Begun inside [t] (.unquoted t.pos)

/-- In front of the tokens `rest`, the tokens `done` are the roots, and what the open frames started
with and have been handed. -/
inductive Spans : List Frame → (roots : List (Form Label)) → (done rest : List Token) → Prop
  | roots {roots : List (Form Label)} {done rest : List Token} :
      DerivesAll false done (roots.reverse.map Form.located) → Spans [] roots done rest
  | bracket {outer : List Frame} {roots items : List (Form Label)} {t : Token}
      {done ts us rest : List Token} {b : Bracket} {opened : Position} :
      Spans outer roots done (t :: ts ++ us ++ rest) → OpeningTokens (insideFn outer) t ts b →
      DerivesAll (b.insideOf (insideFn outer)) us (items.reverse.map Form.located) →
      Spans (.bracket b t.pos opened items :: outer) roots (done ++ (t :: ts ++ us)) rest
  | sigil {outer : List Frame} {roots : List (Form Label)} {t : Token}
      {done ts trivia rest : List Token} {s : Sigil} :
      Spans outer roots done (t :: ts ++ trivia ++ rest) → SigilTokens (trivia ++ rest) t ts s →
      (∀ u ∈ trivia, isCode u.kind = false) →
      Spans (.sigil s t.pos :: outer) roots (done ++ (t :: ts ++ trivia)) rest

/-- In front of the tokens `rest`, the tokens `done` are what the state holds and the beginning of
one more form. -/
def State.Derived (σ : State) (done rest : List Token) : Prop :=
  ∃ ts us, done = ts ++ us ∧ Spans σ.enclosing σ.roots ts (us ++ rest) ∧
    Begun (insideFn σ.enclosing) us σ.expecting

/-! ## 3. Steps keep it -/

/-- Delivering a form accounts for its tokens. -/
theorem derived_deliver {f : Form Label} {n : Nat} (h : Spans frames roots done (ts ++ rest))
    (hf : Derives (insideFn frames) ts f.located) :
    (deliver .everything roots n f frames).Derived (done ++ ts) rest := by
  induction frames generalizing f n done ts with
  | nil =>
    cases h with
    | roots hroots =>
      refine ⟨done ++ ts, [], (List.append_nil _).symm, ?_, .form⟩
      simp only [deliver, keeps_everything, if_true]
      exact .roots (by simpa using hroots.snoc hf)
  | cons frame outer ih =>
    cases h with
    | @bracket _ _ items t done opening us _ b opened hspans hopening hitems =>
      refine ⟨done ++ (t :: opening ++ (us ++ ts)), [], by simp, ?_, .form⟩
      simp only [deliver, keeps_everything, if_true]
      rw [insideFn_bracket] at hf
      exact .bracket (by simpa using hspans) hopening (by simpa using hitems.snoc hf)
    | @sigil _ _ t done mark trivia _ s hspans hmark htrivia =>
      rw [insideFn_sigil] at hf
      rw [deliver]
      -- Code completes the sigil; a comment or a line break joins what is passed over under it.
      cases hsem : f.isSemantic with
      | true =>
        have hhead : (trivia ++ ts).head? = (trivia ++ (ts ++ rest)).head? := by
          obtain ⟨u, us, hus⟩ := List.exists_cons_of_ne_nil
            (show trivia ++ ts ≠ [] by simp [hf.ne_nil])
          rw [← List.append_assoc, hus]
          rfl
        have hform : Derives (insideFn outer) (t :: mark ++ trivia ++ ts)
            (Form.located (.prefixed ⟨n, t.pos⟩ s f)) :=
          .prefixed (hmark.congr hhead) htrivia hf (f.isSemantic_located.trans hsem)
        have hdelivered := ih (n := n + 1) (by simpa using hspans) hform
        simpa using hdelivered
      | false =>
        obtain ⟨u, rfl, hu⟩ := hf.trivia (f.isSemantic_located.trans hsem)
        refine ⟨done ++ (t :: mark ++ (trivia ++ [u])), [], by simp, ?_, .form⟩
        refine .sigil (by simpa using hspans) (by simpa using hmark) ?_
        simpa [or_imp, forall_and] using ⟨htrivia, hu⟩

theorem derived_atom {x : Atom} (h : Spans σ.enclosing σ.roots done (t :: ts ++ rest))
    (hx : AtomTokens t ts x) : (σ.atom .everything t.pos x).Derived (done ++ (t :: ts)) rest :=
  derived_deliver h (.atom hx)

theorem spans_sigil (h : Spans outer roots done (t :: ts ++ rest)) (hs : SigilTokens rest t ts s) :
    Spans (.sigil s t.pos :: outer) roots (done ++ (t :: ts)) rest := by
  have hspans : Spans (.sigil s t.pos :: outer) roots (done ++ (t :: ts ++ [])) rest :=
    .sigil (by simpa using h) hs (by simp)
  rwa [List.append_nil] at hspans

theorem derived_sigil (h : Spans σ.enclosing σ.roots done (t :: ts ++ rest))
    (hs : SigilTokens rest t ts s) :
    (σ.push (.sigil s t.pos)).Derived (done ++ (t :: ts)) rest :=
  ⟨done ++ (t :: ts), [], (List.append_nil _).symm, spans_sigil h hs, .form⟩

theorem derived_bracket (h : Spans σ.enclosing σ.roots done (t :: ts ++ rest))
    (hb : OpeningTokens (insideFn σ.enclosing) t ts b) (opened : Position) :
    (σ.push (.bracket b t.pos opened [])).Derived (done ++ (t :: ts)) rest := by
  have hspans : Spans (.bracket b t.pos opened [] :: σ.enclosing) σ.roots
      (done ++ (t :: ts ++ [])) rest := .bracket (by simpa using h) hb .nil
  rw [List.append_nil] at hspans
  exact ⟨done ++ (t :: ts), [], (List.append_nil _).symm, hspans, .form⟩

theorem derived_expect {e : Expecting} (h : Spans σ.enclosing σ.roots done (ts ++ rest))
    (he : Begun (insideFn σ.enclosing) ts e) : (σ.expect e).Derived (done ++ ts) rest :=
  ⟨done, ts, rfl, h, he⟩

theorem derived_close {d : Delimiter} (h : Spans σ.enclosing σ.roots done (t :: rest))
    (ht : t.kind = .closing d) (hstep : σ.close .everything d t = .ok σ') :
    σ'.Derived (done ++ [t]) rest := by
  obtain ⟨b, pos, opened, items, outer, henc, rfl, heven, rfl⟩ := close_cases hstep
  rw [henc] at h
  cases h with
  | @bracket _ _ _ u done opening us _ _ _ hspans hopening hitems =>
    have hpaired : ∀ ns, b = .map ns →
        (items.reverse.map Form.located).countP Form.isPaired % 2 = 0 := fun ns hns => by
      rw [Form.countP_isPaired_located, List.countP_reverse, heven ns hns]
    have hform : Derives (insideFn outer) (u :: opening ++ us ++ [t])
        (Form.located (.seq ⟨σ.next, u.pos⟩ b items.reverse)) := by
      rw [Form.located_seq]
      exact .seq hopening hitems ht hpaired
    have hdelivered := derived_deliver (n := σ.next + 1) (by simpa using hspans) hform
    simpa using hdelivered

/-- Taking a token where a form may start accounts for it. -/
theorem derived_form (h : Spans σ.enclosing σ.roots done (t :: rest))
    (hstep : σ.form .everything t = .ok σ') : σ'.Derived (done ++ [t]) rest := by
  have hatom : ∀ {x : Atom}, AtomTokens t [] x → σ.atom .everything t.pos x = σ' →
      σ'.Derived (done ++ [t]) rest := fun hx heq => heq ▸ derived_atom h hx
  have hsigil : ∀ {s : Sigil}, SigilTokens rest t [] s → σ.push (.sigil s t.pos) = σ' →
      σ'.Derived (done ++ [t]) rest := fun hs heq => heq ▸ derived_sigil h hs
  have hbracket : ∀ {b : Bracket}, OpeningTokens (insideFn σ.enclosing) t [] b →
      σ.push (.bracket b t.pos t.pos []) = σ' → σ'.Derived (done ++ [t]) rest :=
    fun hb heq => heq ▸ derived_bracket h hb t.pos
  have hexpect : ∀ {e : Expecting}, Begun (insideFn σ.enclosing) [t] e → σ.expect e = σ' →
      σ'.Derived (done ++ [t]) rest := fun he heq => heq ▸ derived_expect h he
  unfold State.form at hstep
  split at hstep
  case h_1 ht => exact hatom (.symbol ht) (Except.ok.inj hstep)
  case h_2 ht =>
    split at hstep
    · next hvalue => exact hatom (.charLiteral ht hvalue) (Except.ok.inj hstep)
    · simp [refuse] at hstep
  case h_3 ht => exact hatom (.comment ht) (Except.ok.inj hstep)
  case h_4 ht => exact hatom (.keyword ht) (Except.ok.inj hstep)
  case h_5 ht => exact hatom (.newline ht) (Except.ok.inj hstep)
  case h_6 ht => exact hatom (.number ht) (Except.ok.inj hstep)
  case h_7 ht => exact hatom (.string ht) (Except.ok.inj hstep)
  case h_8 ht => exact hbracket (.list ht) (Except.ok.inj hstep)
  case h_9 ht => exact hbracket (.vector ht) (Except.ok.inj hstep)
  case h_10 ht => exact hbracket (.map ht) (Except.ok.inj hstep)
  case h_11 ht => exact derived_close h ht hstep
  case h_12 ht => exact hsigil (.deref ht) (Except.ok.inj hstep)
  case h_13 ht => exact hsigil (.quote ht) (Except.ok.inj hstep)
  case h_14 ht => exact hsigil (.syntaxQuote ht) (Except.ok.inj hstep)
  case h_15 ht => exact hsigil (.metadata (.inl ht)) (Except.ok.inj hstep)
  case h_16 ht => exact hexpect (.unquoted ht) (Except.ok.inj hstep)
  case h_17 ht => exact hexpect (.tagName ht) (Except.ok.inj hstep)
  case h_18 d ht =>
    cases d with
    | fnLiteral =>
      simp only [State.dispatch] at hstep
      split at hstep
      · simp [refuse] at hstep
      · next hinside =>
        have hfree : σ.insideFnLiteral = false := by simpa using hinside
        exact hexpect (.opener fun u hu => .fnLiteral hfree ht hu) (Except.ok.inj hstep)
    | set => exact hexpect (.opener fun u hu => .set ht hu) (Except.ok.inj hstep)
    | readerCond => exact hexpect (.opener fun u hu => .readerCond ht hu) (Except.ok.inj hstep)
    | readerCondSplice =>
      exact hexpect (.opener fun u hu => .readerCondSplice ht hu) (Except.ok.inj hstep)
    | namespacedMap => exact hexpect (.namespaceName ht) (Except.ok.inj hstep)
    | regex => exact hexpect (.regex ht) (Except.ok.inj hstep)
    | varQuote => exact hexpect (.varName ht) (Except.ok.inj hstep)
    | discard => exact hsigil (.readerDiscard ht) (Except.ok.inj hstep)
    | eval => exact hsigil (.readerEval ht) (Except.ok.inj hstep)
    | metadata => exact hsigil (.metadata (.inr ht)) (Except.ok.inj hstep)

/-- Taking a token accounts for it. -/
theorem derived_step (h : σ.Derived done (t :: rest)) (hstep : σ.step .everything t = .ok σ') :
    σ'.Derived (done ++ [t]) rest := by
  obtain ⟨ts, us, rfl, hspans, hbegun⟩ := h
  unfold State.step at hstep
  generalize hexp : σ.expecting = e at hbegun hstep
  cases hbegun with
  | form =>
    rw [List.append_nil]
    exact derived_form hspans hstep
  | @opener u us b hopening =>
    dsimp only [State.opener] at hstep
    split at hstep
    · next ht =>
      have hspans' : Spans σ.enclosing σ.roots ts (u :: (us ++ [t]) ++ rest) := by
        simpa using hspans
      rw [← Except.ok.inj hstep]
      simpa using derived_bracket hspans' (hopening t ht) _
    · split at hstep <;> simp [unexpected, refuse] at hstep
  | @regex u hu =>
    dsimp only at hstep
    split at hstep
    · next ht => simpa using Except.ok.inj hstep ▸ derived_atom hspans (.regex hu ht)
    · simp [unexpected, refuse] at hstep
  | @varName u hu =>
    dsimp only at hstep
    split at hstep
    · next ht => simpa using Except.ok.inj hstep ▸ derived_atom hspans (.varQuote hu ht)
    · simp [unexpected, refuse] at hstep
  | @tagName u hu =>
    dsimp only at hstep
    split at hstep
    · next ht => simpa using Except.ok.inj hstep ▸ derived_atom hspans (.tag hu ht)
    · simp [unexpected, refuse] at hstep
  | @namespaceName u hu =>
    dsimp only at hstep
    split at hstep
    · next ht =>
      have hname : Begun (insideFn σ.enclosing) [u, t] (.opener (.map (some t.text)) u.pos) :=
        .opener fun v hv => .namespacedMap hu ht hv
      have hspans' : Spans σ.enclosing σ.roots ts ([u, t] ++ rest) := hspans
      rw [← Except.ok.inj hstep]
      simpa using derived_expect hspans' hname
    · simp [unexpected, refuse] at hstep
  | @unquoted u hu =>
    -- Now the token behind the `~` is known: it makes a splice, or the sigil is open before it.
    dsimp only at hstep
    split at hstep
    · next ht =>
      have hspans' : Spans σ.enclosing σ.roots ts (u :: [t] ++ rest) := hspans
      rw [← Except.ok.inj hstep]
      simpa using derived_sigil hspans' (.unquoteSplice hu ht)
    · next ht =>
      have hspans' : Spans σ.enclosing σ.roots ts (u :: [] ++ t :: rest) := hspans
      have hopened := spans_sigil hspans' (.unquote hu (by simpa using ht))
      exact derived_form (σ := σ.push (.sigil .unquote u.pos)) hopened hstep

theorem derived_run (h : σ.Derived done ts) (hrun : run .everything σ ts = .ok σ') :
    σ'.Derived (done ++ ts) [] := by
  induction ts generalizing σ done with
  | nil =>
    rw [run_nil] at hrun
    rw [List.append_nil, ← Except.ok.inj hrun]
    exact h
  | cons t ts ih =>
    obtain ⟨τ, hstep, hlater⟩ := step_of_run hrun
    rw [List.append_cons]
    exact ih (derived_step h hstep) hlater

theorem derived_start (ts : List Token) : State.start.Derived [] ts :=
  ⟨[], [], rfl, .roots .nil, .form⟩

/-! ## 4. Errors -/

/-- A refusal of the reader is no fault of the scan. -/
def IsReadError (e : SyntaxError) : Prop :=
  ∃ fault, e.fault = .read fault

variable {options : Options} {e : SyntaxError} {source : String}

theorem isReadError_of_refuse {α : Type} {fault : ReadFault}
    (h : (refuse pos fault : Except SyntaxError α) = .error e) : IsReadError e :=
  ⟨fault, congrArg SyntaxError.fault (Except.error.inj h).symm⟩

theorem isReadError_of_close {d : Delimiter} (h : σ.close options d t = .error e) :
    IsReadError e := by
  unfold State.close at h
  split at h
  · split at h
    · exact isReadError_of_refuse h
    · dsimp only at h
      generalize (_ && _ : Bool) = odd at h
      cases odd with
      | true => exact isReadError_of_refuse h
      | false => exact absurd h (by simp)
  · exact isReadError_of_refuse h

theorem isReadError_of_form (h : σ.form options t = .error e) : IsReadError e := by
  unfold State.form at h
  split at h
  case h_2 =>
    split at h
    · exact absurd h (by simp)
    · exact isReadError_of_refuse h
  case h_11 => exact isReadError_of_close h
  case h_18 d _ =>
    cases d with
    | fnLiteral =>
      dsimp only [State.dispatch] at h
      split at h
      · exact isReadError_of_refuse h
      · exact absurd h (by simp)
    | _ => exact absurd h (by simp [State.dispatch])
  all_goals exact absurd h (by simp)

theorem isReadError_of_step (h : σ.step options t = .error e) : IsReadError e := by
  unfold State.step at h
  split at h
  case h_1 => exact isReadError_of_form h
  case h_2 =>
    unfold State.opener at h
    split at h
    · exact absurd h (by simp)
    · split at h <;> exact isReadError_of_refuse h
  case h_7 =>
    split at h
    · exact absurd h (by simp)
    · exact isReadError_of_form h
  all_goals
    split at h
    · exact absurd h (by simp)
    · exact isReadError_of_refuse h

theorem isReadError_of_run (h : run options σ ts = .error e) : IsReadError e := by
  induction ts generalizing σ with
  | nil => simp at h
  | cons t ts ih =>
    rw [run_cons] at h
    cases hstep : σ.step options t with
    | error cause =>
      rw [hstep] at h
      exact Except.error.inj h ▸ isReadError_of_step hstep
    | ok τ =>
      rw [hstep] at h
      exact ih h

theorem isReadError_of_finish (h : σ.finish pos = .error e) : IsReadError e := by
  unfold State.finish at h
  split at h
  · exact absurd h (by simp)
  · exact isReadError_of_refuse h
  · exact isReadError_of_refuse h

/-- An error of the stage that scans is the one with which the scan ends. -/
theorem complete_of_read_error (h : read options source = .error e) (hstage : e.stage = "lex") :
    (scan source).complete = .error e := by
  have hread : ¬ IsReadError e := by
    rintro ⟨fault, hfault⟩
    simp [SyntaxError.stage, hfault] at hstage
  unfold read ofScan at h
  change (run options State.start (scan source).tokens).bind _ = _ at h
  cases hrun : run options State.start (scan source).tokens with
  | error cause =>
    rw [hrun] at h
    exact absurd (Except.error.inj h ▸ isReadError_of_run hrun) hread
  | ok σ =>
    rw [hrun] at h
    unfold Scan.complete
    cases herror : (scan source).ending.error? with
    | some cause =>
      simp only [Except.bind, herror] at h
      rw [Except.error.inj h]
    | none =>
      simp only [Except.bind, herror] at h
      exact absurd (isReadError_of_finish h) hread

theorem complete_eq_ok : (scan source).complete = .ok ts ↔
    (scan source).ending.fault = none ∧ (scan source).tokens = ts := by
  unfold Scan.complete Scan.Ending.error?
  cases (scan source).ending.fault <;> simp

/-! ## 5. Whole sources -/

/-- What is read is derived. -/
theorem derives_of_read {d : Document} (h : read .everything source = .ok d) :
    (scan source).complete = .ok (scan source).tokens ∧
      DerivesAll false (scan source).tokens (d.roots.map Form.located) := by
  obtain ⟨σ, hrun, hfault, hexp, henc, rfl⟩ := read_eq_ok.mp h
  obtain ⟨ts, us, htokens, hspans, hbegun⟩ := derived_run (derived_start _) hrun
  rw [hexp] at hbegun
  cases hbegun
  rw [henc] at hspans
  cases hspans with
  | roots hroots =>
    rw [List.nil_append, List.append_nil] at htokens
    exact ⟨complete_eq_ok.mpr ⟨hfault, rfl⟩, htokens ▸ hroots⟩

/-- What is derived is read. -/
theorem read_of_derives {fs : List (Form Position)} (hcomplete : (scan source).complete = .ok ts)
    (h : DerivesAll false ts fs) :
    ∃ d, read .everything source = .ok d ∧ d.roots.map Form.located = fs := by
  obtain ⟨hfault, rfl⟩ := complete_eq_ok.mp hcomplete
  obtain ⟨gs, n, hgs, hrun⟩ := run_of_derivesAll h .start rfl rfl (by simp [State.start])
  refine ⟨⟨gs, n⟩, read_eq_ok.mpr ⟨_, hrun, hfault, rfl, rfl, ?_⟩, hgs⟩
  simp [State.holding, State.start]

/-- The reader accepts exactly the grammar: a source is read as the forms `fs` if and only if it
scans to its end and its tokens are derived as `fs`. A source that does not scan to its end is not
read, and if the reader gives the scan as the reason, it is the error of the scan. -/
theorem read_iff_derives (source : String) :
    (∀ fs, (∃ d, read .everything source = .ok d ∧ d.roots.map Form.located = fs) ↔
        ∃ ts, (scan source).complete = .ok ts ∧ DerivesAll false ts fs) ∧
      (∀ e, (scan source).complete = .error e → ∃ e', read .everything source = .error e') ∧
      ∀ e, read .everything source = .error e → e.stage = "lex" →
        (scan source).complete = .error e := by
  refine ⟨fun fs => ⟨?_, ?_⟩, fun e he => ?_, fun e => complete_of_read_error⟩
  · rintro ⟨d, hread, rfl⟩
    exact ⟨_, derives_of_read hread⟩
  · rintro ⟨ts, hcomplete, hderives⟩
    exact read_of_derives hcomplete hderives
  · cases hread : read .everything source with
    | error e' => exact ⟨e', rfl⟩
    | ok d =>
      rw [(derives_of_read hread).1] at he
      exact absurd he (by simp)

end CljFormat.Reader
