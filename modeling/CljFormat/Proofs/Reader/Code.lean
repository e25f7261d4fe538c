/-
CljFormat.Proofs.Reader.Code — line breaks and comments do not change what is read.

Two sources are read as the same code when the same tokens are left of them without their line
breaks and comments, with one exception: what stands behind a `~` decides whether it is an unquote
or, with an `@`, a splice, and this token is looked at as it comes. In `~@x` the `@` belongs to the
`~`, and behind a line break it is a sigil of its own. So the sources also have to agree on which
`@` stand directly behind a `~` (`bare_roots_of_code`). They have to, since the forms show which
(`unquotes_of_read`).

The proof compares two runs. What a step does depends on the places of the tokens only in the places
it puts into forms, so states that are equal but for places and identities (`State.bare`) stay so
(`outcome_step`). A line break or a comment changes such a state only by opening the sigil of a `~`
that waits, which any other token than `@` does as well (`step_opened`).
-/
import CljFormat.Proofs.Reader.Unquotes

namespace CljFormat.Reader

variable {options : Options} {σ σ' τ τ' : State} {t u : Token}

/-! ## 1. The code of a source -/

/-- The tokens that are code. -/
def code (ts : List Spelling) : List Spelling :=
  ts.filter fun t => isCode t.1

/-! ## 2. States without places and identities -/

/-- An open frame without its places. -/
def Frame.bare : Frame → Sigil ⊕ Bracket × List (Form Unit)
  | .bracket b _ _ items => .inr (b, items.map Form.bare)
  | .sigil s _ => .inl s

/-- What the next token has to be, whatever the place. -/
def Expecting.bare : Expecting → Expecting
  | .form => .form
  | .opener b _ => .opener b .start
  | .regex _ => .regex .start
  | .varName _ => .varName .start
  | .tagName _ => .tagName .start
  | .namespaceName _ => .namespaceName .start
  | .unquoted _ => .unquoted .start

/-- A state without its places and the identities of its forms. -/
def State.bare (σ : State) :
    List (Sigil ⊕ Bracket × List (Form Unit)) × Expecting × List (Form Unit) :=
  (σ.enclosing.map Frame.bare, σ.expecting.bare, σ.roots.map Form.bare)

/-- What comes of a step, places and identities aside. -/
def outcome (x : Except SyntaxError State) :
    Option (List (Sigil ⊕ Bracket × List (Form Unit)) × Expecting × List (Form Unit)) :=
  x.toOption.map State.bare

@[simp] theorem outcome_ok : outcome (.ok σ) = some σ.bare := rfl

@[simp] theorem outcome_refuse (pos : Position) (fault : ReadFault) :
    outcome (refuse pos fault) = none := rfl

theorem bare_eq_iff :
    σ.bare = τ.bare ↔ σ.enclosing.map Frame.bare = τ.enclosing.map Frame.bare ∧
      σ.expecting.bare = τ.expecting.bare ∧ σ.roots.map Form.bare = τ.roots.map Form.bare := by
  simp [State.bare]

/-! ## 3. Deliveries -/

/-- Whether a form is a call does not depend on places. -/
theorem isCallOf_bare (name : String) (f : Form Label) :
    f.bare.isCallOf name = f.isCallOf name := by
  cases f with
  | atom l x => cases x <;> rfl
  | prefixed l s body => rfl
  | seq l b items =>
    rw [Form.bare_seq]
    cases b with
    | list =>
      cases items with
      | nil => rfl
      | cons head rest =>
        cases head with
        | atom l x => cases x <;> rfl
        | prefixed l s body => rfl
        | seq l b items => rfl
    | _ => rfl

/-- Whether a form is kept does not depend on places. -/
theorem keeps_bare (f : Form Label) : options.keeps f.bare = options.keeps f := by
  rw [Options.keeps, Options.keeps, isCallOf_bare, Form.isSemantic_bare]
  cases f with
  | prefixed l s body => cases s <;> rfl
  | _ => rfl

theorem keeps_congr {f g : Form Label} (h : f.bare = g.bare) :
    options.keeps f = options.keeps g := by
  rw [← keeps_bare f, h, keeps_bare]

theorem map_bare_kept {f g : Form Label} {fs gs : List (Form Label)} (h : f.bare = g.bare)
    (hs : fs.map Form.bare = gs.map Form.bare) :
    (if options.keeps f then f :: fs else fs).map Form.bare
      = (if options.keeps g then g :: gs else gs).map Form.bare := by
  rw [keeps_congr h]
  split
  · simp [h, hs]
  · exact hs

/-- What comes of a delivery does not depend on places. -/
theorem bare_deliver {roots roots' : List (Form Label)} {frames frames' : List Frame}
    {f g : Form Label} (hroots : roots.map Form.bare = roots'.map Form.bare)
    (hframes : frames.map Frame.bare = frames'.map Frame.bare) (hf : f.bare = g.bare)
    (next next' : Nat) :
    (deliver options roots next f frames).bare = (deliver options roots' next' g frames').bare := by
  induction frames generalizing frames' f g next next' with
  | nil =>
    obtain rfl : frames' = [] := by simpa using hframes
    exact bare_eq_iff.mpr ⟨rfl, rfl, map_bare_kept hf hroots⟩
  | cons frame outer ih =>
    obtain ⟨frame', outer', rfl, hframe, houter⟩ := List.map_eq_cons_iff.mp hframes.symm
    cases frame with
    | bracket b pos opened items =>
      cases frame' with
      | bracket b' pos' opened' items' =>
        obtain ⟨rfl, hitems⟩ : b' = b ∧ items'.map Form.bare = items.map Form.bare := by
          simpa [Frame.bare] using hframe
        refine bare_eq_iff.mpr ⟨?_, rfl, hroots⟩
        simp only [deliver, List.map_cons, Frame.bare, map_bare_kept hf hitems.symm, houter]
      | sigil s' pos' => simp [Frame.bare] at hframe
    | sigil s pos =>
      cases frame' with
      | bracket b' pos' opened' items' => simp [Frame.bare] at hframe
      | sigil s' pos' =>
        obtain rfl : s' = s := by simpa [Frame.bare] using hframe
        have hsem : f.isSemantic = g.isSemantic := by
          rw [← Form.isSemantic_bare, hf, Form.isSemantic_bare]
        rw [deliver, deliver, hsem]
        split
        · exact ih houter.symm (by simp [hf]) _ _
        · exact bare_eq_iff.mpr ⟨by simp [Frame.bare, houter], rfl, hroots⟩

/-! ## 4. Steps -/

theorem bare_atom (h : σ.bare = τ.bare) (pos pos' : Position) (x : Atom) :
    (σ.atom options pos x).bare = (τ.atom options pos' x).bare := by
  obtain ⟨hframes, -, hroots⟩ := bare_eq_iff.mp h
  have hx : (Form.atom (Label.mk σ.next pos) x).bare = (Form.atom (Label.mk τ.next pos') x).bare :=
    rfl
  exact bare_deliver hroots hframes hx _ _

theorem bare_push (h : σ.bare = τ.bare) {frame frame' : Frame} (hframe : frame.bare = frame'.bare) :
    (σ.push frame).bare = (τ.push frame').bare := by
  obtain ⟨hframes, -, hroots⟩ := bare_eq_iff.mp h
  exact bare_eq_iff.mpr ⟨by simp [State.push, hframe, hframes], rfl, hroots⟩

theorem bare_expect (h : σ.bare = τ.bare) {e e' : Expecting} (he : e.bare = e'.bare) :
    (σ.expect e).bare = (τ.expect e').bare := by
  obtain ⟨hframes, -, hroots⟩ := bare_eq_iff.mp h
  exact bare_eq_iff.mpr ⟨hframes, he, hroots⟩

/-- Whether a frame is a function literal. -/
def isFnLiteral : Sigil ⊕ Bracket × List (Form Unit) → Bool
  | .inr (.fnLiteral, _) => true
  | _ => false

theorem insideFnLiteral_congr (h : σ.bare = τ.bare) :
    σ.insideFnLiteral = τ.insideFnLiteral := by
  have hfn : ∀ ρ : State, ρ.insideFnLiteral = (ρ.enclosing.map Frame.bare).any isFnLiteral := by
    intro ρ
    rw [List.any_map, State.insideFnLiteral]
    congr 1
    funext frame
    cases frame with
    | bracket b pos opened items => cases b <;> rfl
    | sigil s pos => rfl
  rw [hfn, hfn, (bare_eq_iff.mp h).1]

theorem countP_isPaired_congr {fs gs : List (Form Label)}
    (h : fs.map Form.bare = gs.map Form.bare) :
    fs.countP Form.isPaired = gs.countP Form.isPaired := by
  have hbare : ∀ hs : List (Form Label),
      hs.countP Form.isPaired = (hs.map Form.bare).countP Form.isPaired := by
    intro hs
    simp [List.countP_map, Function.comp_def]
  rw [hbare, h, ← hbare]

theorem outcome_close (h : σ.bare = τ.bare) (d : Delimiter) :
    outcome (σ.close options d t) = outcome (τ.close options d u) := by
  obtain ⟨frames, expecting, roots, next⟩ := σ
  obtain ⟨frames', expecting', roots', next'⟩ := τ
  obtain ⟨hframes, -, hroots⟩ := bare_eq_iff.mp h
  dsimp only at hframes hroots
  match frames, frames' with
  | [], [] => rfl
  | .sigil s pos :: outer, .sigil s' pos' :: outer' => rfl
  | .bracket b pos opened items :: outer, .bracket b' pos' opened' items' :: outer' =>
    obtain ⟨⟨rfl, hitems⟩, houter⟩ :
        (b = b' ∧ items.map Form.bare = items'.map Form.bare) ∧
          outer.map Frame.bare = outer'.map Frame.bare := by
      simpa [Frame.bare] using hframes
    have hcount := countP_isPaired_congr hitems
    have hseq : (Form.seq (Label.mk next pos) b items.reverse).bare
        = (Form.seq (Label.mk next' pos') b items'.reverse).bare := by simp [hitems]
    have hdelivered := @bare_deliver options _ _ _ _ _ _ hroots houter hseq (next + 1) (next' + 1)
    simp only [State.close, List.countP_reverse, hcount]
    split
    · rfl
    · cases b with
      | map ns => by_cases hodd : items'.countP Form.isPaired % 2 = 1 <;> simp [hodd, hdelivered]
      | _ => exact congrArg some hdelivered
  | [], .sigil _ _ :: _ | [], .bracket _ _ _ _ :: _ | .sigil _ _ :: _, []
  | .bracket _ _ _ _ :: _, [] | .sigil _ _ :: _, .bracket _ _ _ _ :: _
  | .bracket _ _ _ _ :: _, .sigil _ _ :: _ => simp [Frame.bare] at hframes

theorem outcome_dispatch (h : σ.bare = τ.bare) (pos pos' : Position) (d : Dispatch) :
    outcome (σ.dispatch pos d) = outcome (τ.dispatch pos' d) := by
  cases d with
  | fnLiteral =>
    rw [State.dispatch, State.dispatch, insideFnLiteral_congr h]
    split
    · rfl
    · exact congrArg some (bare_expect h rfl)
  | discard => exact congrArg some (bare_push h rfl)
  | eval => exact congrArg some (bare_push h rfl)
  | metadata => exact congrArg some (bare_push h rfl)
  | _ => exact congrArg some (bare_expect h rfl)

theorem outcome_form (h : σ.bare = τ.bare) (ht : t.spelling = u.spelling) :
    outcome (σ.form options t) = outcome (τ.form options u) := by
  obtain ⟨kind, pos, text⟩ := t
  obtain ⟨kind', pos', text'⟩ := u
  obtain ⟨rfl, rfl⟩ : kind = kind' ∧ text = text' := by simpa [Token.spelling] using ht
  cases kind with
  | closing d => exact outcome_close h d
  | dispatch d => exact outcome_dispatch h pos pos' d
  | opening d => cases d <;> exact congrArg some (bare_push h rfl)
  | charLiteral =>
    simp only [State.form]
    split
    · exact congrArg some (bare_atom h _ _ _)
    · rfl
  | atSign => exact congrArg some (bare_push h rfl)
  | apostrophe => exact congrArg some (bare_push h rfl)
  | backtick => exact congrArg some (bare_push h rfl)
  | circumflex => exact congrArg some (bare_push h rfl)
  | tilde => exact congrArg some (bare_expect h rfl)
  | octothorpe => exact congrArg some (bare_expect h rfl)
  | _ => exact congrArg some (bare_atom h _ _ _)

theorem outcome_opener (h : σ.bare = τ.bare) (ht : t.spelling = u.spelling) (b : Bracket)
    (pos pos' : Position) :
    outcome (σ.opener b pos t) = outcome (τ.opener b pos' u) := by
  have hkind : t.kind = u.kind := congrArg Prod.fst ht
  unfold State.opener
  rw [hkind]
  split
  · exact congrArg some (bare_push h rfl)
  · cases b <;> rfl

/-- What comes of a step does not depend on places. -/
theorem outcome_step (h : σ.bare = τ.bare) (ht : t.spelling = u.spelling) :
    outcome (σ.step options t) = outcome (τ.step options u) := by
  have hkind : t.kind = u.kind := congrArg Prod.fst ht
  have htext : t.text = u.text := congrArg Prod.snd ht
  have hexp := (bare_eq_iff.mp h).2.1
  unfold State.step
  rw [hkind, htext]
  cases hσ : σ.expecting <;> cases hτ : τ.expecting <;> rw [hσ, hτ] at hexp <;>
    simp only [Expecting.bare, reduceCtorEq, Expecting.opener.injEq, and_true] at hexp
  case form.form => exact outcome_form h ht
  case opener.opener b pos b' pos' => exact hexp ▸ outcome_opener h ht b pos pos'
  case namespaceName.namespaceName =>
    dsimp only
    split
    · exact congrArg some (bare_expect h rfl)
    · rfl
  case unquoted.unquoted =>
    dsimp only
    split
    · exact congrArg some (bare_push h rfl)
    · exact outcome_form (bare_push h rfl) ht
  all_goals
    dsimp only
    split
    · exact congrArg some (bare_atom h _ _ _)
    · rfl

/-- Steps from states that differ in places only lead to such states. -/
theorem bare_of_steps (hσ : σ.bare = τ.bare) (ht : t.spelling = u.spelling)
    (h : σ.step options t = .ok σ') (h' : τ.step options u = .ok τ') : σ'.bare = τ'.bare := by
  have hsteps := @outcome_step options _ _ _ _ hσ ht
  rw [h, h'] at hsteps
  simpa using hsteps

/-! ## 5. Waiting for an `@` -/

theorem opened_eq_self (h : σ.atTilde = false) : σ.opened = σ := by
  unfold State.opened
  split
  · next hexp => simp [State.atTilde, hexp] at h
  · rfl

theorem atTilde_of_bare (h : σ.bare = τ.bare) : σ.atTilde = τ.atTilde := by
  have hexp := (bare_eq_iff.mp h).2.1
  unfold State.atTilde
  cases hσ : σ.expecting <;> cases hτ : τ.expecting <;> rw [hσ, hτ] at hexp <;>
    simp only [Expecting.bare, reduceCtorEq] at hexp

theorem bare_opened (h : σ.bare = τ.bare) : σ.opened.bare = τ.opened.bare := by
  have hexp := (bare_eq_iff.mp h).2.1
  unfold State.opened
  cases hσ : σ.expecting <;> cases hτ : τ.expecting <;> rw [hσ, hτ] at hexp <;>
    simp only [Expecting.bare, reduceCtorEq] at hexp
  case unquoted.unquoted => exact bare_push h rfl
  all_goals exact h

theorem bare_trivia (hoptions : options.nonSemantic = false) (hcode : isCode t.kind = false)
    (h : σ.step options t = .ok σ') : σ'.bare = σ.opened.bare := by
  rw [step_dropped hoptions hcode h]
  rfl

/-! ## 6. Runs over code -/

theorem code_cons (hcode : isCode t.kind = true) (ts : List Token) :
    code ((t :: ts).map Token.spelling) = t.spelling :: code (ts.map Token.spelling) :=
  List.filter_cons_of_pos hcode

theorem code_cons_trivia (hcode : isCode t.kind = false) (ts : List Token) :
    code ((t :: ts).map Token.spelling) = code (ts.map Token.spelling) :=
  List.filter_cons_of_neg (by simp [Token.spelling, hcode])

/-- A run over tokens that are no code opens the sigil of a `~` that waits, and does nothing else.
-/
theorem bare_of_no_code (hoptions : options.nonSemantic = false) {ts : List Token}
    (hcode : code (ts.map Token.spelling) = []) (h : run options σ ts = .ok σ')
    (htilde : σ'.atTilde = false) : σ'.bare = σ.opened.bare := by
  induction ts generalizing σ with
  | nil =>
    rw [run_nil] at h
    injection h with h
    rw [h, opened_eq_self htilde]
  | cons t ts ih =>
    cases hkind : isCode t.kind with
    | true =>
      rw [code_cons hkind] at hcode
      simp at hcode
    | false =>
      rw [code_cons_trivia hkind] at hcode
      obtain ⟨τ, hfirst, hrest⟩ := step_of_run h
      rw [ih hcode hrest, opened_eq_self (atTilde_trivia hkind hfirst),
        bare_trivia hoptions hkind hfirst]

/-- A run takes the next token that is code with the sigil of a waiting `~` open, unless this token
is an `@` directly behind the `~`. -/
theorem next_code (hoptions : options.nonSemantic = false) {ts : List Token} {s : Spelling}
    {ss : List Spelling} (hcode : code (ts.map Token.spelling) = s :: ss)
    (h : run options σ ts = .ok σ') :
    ∃ (splice : Bool) (t : Token) (rest : List Token) (τ τ' : State), t.spelling = s ∧
      code (rest.map Token.spelling) = ss ∧
      unquotes σ.atTilde (ts.map Token.spelling)
        = (if σ.atTilde then [splice] else [])
          ++ unquotes τ'.atTilde (rest.map Token.spelling) ∧
      (splice = true → σ.atTilde = true) ∧
      τ.bare = (if splice then σ else σ.opened).bare ∧
      τ.step options t = .ok τ' ∧ run options τ' rest = .ok σ' := by
  induction ts generalizing σ with
  | nil => simp [code] at hcode
  | cons t ts ih =>
    obtain ⟨τ, hfirst, hrest⟩ := step_of_run h
    cases hkind : isCode t.kind with
    | true =>
      rw [code_cons hkind, List.cons.injEq] at hcode
      refine ⟨σ.atTilde && t.kind == .atSign, t, ts, _, τ, hcode.1, hcode.2, ?_, ?_, rfl, ?_, hrest⟩
      · rw [unquotes_cons, atTilde_step hfirst]
        cases σ.atTilde <;> rfl
      · simp +contextual
      · rw [← hfirst]
        cases htilde : σ.atTilde with
        | false => rw [opened_eq_self htilde, ite_self]
        | true =>
          by_cases hat : t.kind = .atSign
          · simp [hat]
          · rw [@step_opened options σ t hat]
            simp [hat]
    | false =>
      rw [code_cons_trivia hkind] at hcode
      have hτ := atTilde_trivia hkind hfirst
      obtain ⟨splice, u, rest, ρ, ρ', hu, hrest', hunquotes, hsplice, hρ, hstep, hrun⟩ :=
        ih hcode hrest
      obtain rfl : splice = false := by simpa [hτ] using hsplice
      refine ⟨false, u, rest, ρ, ρ', hu, hrest', ?_, by simp, ?_, hstep, hrun⟩
      · rw [hτ] at hunquotes
        rw [unquotes_cons, ← atTilde_step hfirst, hτ, beq_eq_false_iff_ne.mpr
          (ne_atSign_of_trivia hkind), hunquotes]
        rfl
      · rw [opened_eq_self hτ, ite_self, bare_trivia hoptions hkind hfirst] at hρ
        exact hρ

/-- Runs over the same code from states that differ in places only lead to such states. -/
theorem bare_of_runs (hoptions : options.nonSemantic = false) {ts us : List Token}
    (hσ : σ.bare = τ.bare)
    (hcode : code (ts.map Token.spelling) = code (us.map Token.spelling))
    (hunquotes : unquotes σ.atTilde (ts.map Token.spelling)
      = unquotes τ.atTilde (us.map Token.spelling))
    (h : run options σ ts = .ok σ') (h' : run options τ us = .ok τ')
    (hend : σ'.atTilde = false) (hend' : τ'.atTilde = false) : σ'.bare = τ'.bare := by
  generalize hss : code (us.map Token.spelling) = ss at hcode
  induction ss generalizing σ τ ts us with
  | nil =>
    rw [bare_of_no_code hoptions hcode h hend, bare_of_no_code hoptions hss h' hend']
    exact bare_opened hσ
  | cons s ss ih =>
    obtain ⟨splice, t, ts', σ₁, σ₂, ht, hts', htaken, hsplice, hσ₁, hstep, hrun⟩ :=
      next_code hoptions hcode h
    obtain ⟨splice', u, us', τ₁, τ₂, hu, hus', htaken', hsplice', hτ₁, hstep', hrun'⟩ :=
      next_code hoptions hss h'
    rw [htaken, htaken', atTilde_of_bare hσ] at hunquotes
    rw [atTilde_of_bare hσ] at hsplice
    -- Where no `~` waits, neither of the two tokens is part of a splice.
    have hsame : splice = splice' ∧ unquotes σ₂.atTilde (ts'.map Token.spelling)
        = unquotes τ₂.atTilde (us'.map Token.spelling) := by
      cases htilde : τ.atTilde with
      | false =>
        obtain rfl : splice = false := by simpa [htilde] using hsplice
        obtain rfl : splice' = false := by simpa [htilde] using hsplice'
        exact ⟨rfl, by simpa [htilde] using hunquotes⟩
      | true => simpa [htilde] using hunquotes
    obtain ⟨rfl, hlater⟩ := hsame
    have hbefore : σ₁.bare = τ₁.bare := by
      rw [hσ₁, hτ₁]
      split
      · exact hσ
      · exact bare_opened hσ
    have hafter := bare_of_steps hbefore (ht.trans hu.symm) hstep hstep'
    exact ih hafter hlater hrun hrun' hus' hts'

/-! ## 7. Sources -/

/-- Two sources with the same code, and the same `@` directly behind a `~`, are read as the same
forms if line breaks and comments are not kept. -/
theorem bare_roots_of_code (hoptions : options.nonSemantic = false) {source source' : String}
    {d d' : Document} (h : read options source = .ok d) (h' : read options source' = .ok d')
    (hcode : code ((scan source).tokens.map Token.spelling)
      = code ((scan source').tokens.map Token.spelling))
    (hunquotes : unquotes false ((scan source).tokens.map Token.spelling)
      = unquotes false ((scan source').tokens.map Token.spelling)) :
    d.roots.map Form.bare = d'.roots.map Form.bare := by
  obtain ⟨σ, hrun, -, hexp, -, rfl⟩ := read_eq_ok.mp h
  obtain ⟨τ, hrun', -, hexp', -, rfl⟩ := read_eq_ok.mp h'
  have hend : ∀ ρ : State, ρ.expecting = .form → ρ.atTilde = false := by
    intro ρ hρ
    rw [State.atTilde, hρ]
  have hstart : State.start.bare = State.start.bare := rfl
  have hbare := bare_of_runs hoptions hstart hcode hunquotes hrun hrun' (hend σ hexp) (hend τ hexp')
  simp [(bare_eq_iff.mp hbare).2.2]

/-- Of two sources with the same code the same forms are read exactly if the same `@` stand directly
behind a `~`. -/
theorem bare_roots_eq_iff {source source' : String} {d d' : Document}
    (h : read {} source = .ok d) (h' : read {} source' = .ok d')
    (hcode : code ((scan source).tokens.map Token.spelling)
      = code ((scan source').tokens.map Token.spelling)) :
    d.roots.map Form.bare = d'.roots.map Form.bare ↔
      unquotes false ((scan source).tokens.map Token.spelling)
        = unquotes false ((scan source').tokens.map Token.spelling) := by
  constructor
  · intro hroots
    have hread := @unquotes_of_read {} rfl ⟨rfl, rfl⟩ _ _ h
    have hread' := @unquotes_of_read {} rfl ⟨rfl, rfl⟩ _ _ h'
    rw [← hread, ← hread', ← Form.Extract.flatMap_ofForm_bare, hroots,
      Form.Extract.flatMap_ofForm_bare]
  · exact bare_roots_of_code rfl h h' hcode

/-- A comment behind a `~` and a line break behind a quote. -/
theorem bare_roots_eq_of_quoted :
    ∃ d d', read {} "~;a\n(f '\nx ~@y)" = .ok d ∧ read {} "~(f 'x\n~@y) ;b" = .ok d' ∧
      d.roots.map Form.bare = d'.roots.map Form.bare := by
  have hread : ∃ d d', read {} "~;a\n(f '\nx ~@y)" = .ok d ∧ read {} "~(f 'x\n~@y) ;b" = .ok d' :=
    ⟨_, _, rfl, rfl⟩
  obtain ⟨d, d', h, h'⟩ := hread
  exact ⟨d, d', h, h', (bare_roots_eq_iff h h' (by decide)).mpr (by decide)⟩

/-- A line break between a `~` and an `@` is not without meaning: it makes an unquote of a
dereference out of a splice. -/
theorem unquote_of_splice :
    ∃ d d', read {} "~\n@x" = .ok d ∧ read {} "~@x" = .ok d' ∧
      code ((scan "~\n@x").tokens.map Token.spelling)
        = code ((scan "~@x").tokens.map Token.spelling) ∧
      d.roots.map Form.bare ≠ d'.roots.map Form.bare := by
  refine ⟨_, _, rfl, rfl, by decide, ?_⟩
  have hdiffer : [Form.prefixed () .unquote (.prefixed () .deref (.atom () (.symbol "x")))]
      ≠ [Form.prefixed () .unquoteSplice (.atom () (.symbol "x"))] := by simp
  exact hdiffer

end CljFormat.Reader
