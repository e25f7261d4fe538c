/-
CljFormat.Proofs.Reader.Grammar — the grammar of sources.

`Derives inside ts f` says that the tokens `ts` are the form `f`, inside a function literal or not,
and `DerivesAll` that they are neighbouring forms. There is one rule for atoms, one for sigils and
one for brackets, over three tables: the tokens of an atom (`AtomTokens`), those of a sigil
(`SigilTokens`) and those that open a bracket (`OpeningTokens`). The forms of a derivation are
annotated with the places where they start, and nothing in the grammar mentions the reader.

The reader takes whatever is derived (`run_of_derives`): from any state that waits for a form, the
tokens of a form lead to the state in which that form has been delivered. The proof goes along the
derivation.
-/
import CljFormat.Proofs.Reader.Readable

namespace CljFormat

/-! ## 1. Forms by their places -/

namespace Form

mutual

/-- A form annotated with the places where it and the forms below it start. -/
def located : Form Label → Form Position
  | .atom l x => .atom l.pos x
  | .prefixed l s body => .prefixed l.pos s body.located
  | .seq l b items => .seq l.pos b (locatedAll items)

/-- Neighbouring forms annotated with places. -/
def locatedAll : List (Form Label) → List (Form Position)
  | [] => []
  | f :: rest => f.located :: locatedAll rest

end

@[simp] theorem locatedAll_eq_map (fs : List (Form Label)) :
    locatedAll fs = fs.map located := by
  induction fs with
  | nil => rfl
  | cons f rest ih => simp [locatedAll, ih]

@[simp] theorem located_atom (l : Label) (x : Atom) : located (.atom l x) = .atom l.pos x := rfl

@[simp] theorem located_prefixed (l : Label) (s : Sigil) (body : Form Label) :
    located (.prefixed l s body) = .prefixed l.pos s body.located := rfl

@[simp] theorem located_seq (l : Label) (b : Bracket) (items : List (Form Label)) :
    located (.seq l b items) = .seq l.pos b (items.map located) := by
  simp [located]

@[simp] theorem bare_located (f : Form Label) : f.located.bare = f.bare := by
  induction f using Form.induct with
  | atom l x => rfl
  | prefixed l s body ih => simp [ih]
  | seq l b items ih => simpa using ih

@[simp] theorem isSemantic_located (f : Form Label) : f.located.isSemantic = f.isSemantic := by
  rw [← isSemantic_bare, bare_located, isSemantic_bare]

theorem countP_isPaired_located (fs : List (Form Label)) :
    (fs.map located).countP isPaired = fs.countP isPaired := by
  rw [List.countP_map]
  refine List.countP_congr fun f _ => ?_
  rw [Function.comp_apply, ← isPaired_bare, bare_located, isPaired_bare]

end Form

namespace Reader

/-! ## 2. The grammar -/

/-- The token `t` and the tokens behind it are an atom. -/
inductive AtomTokens (t : Token) : (ts : List Token) → Atom → Prop
  | symbol : t.kind = .symbol → AtomTokens t [] (atomOfSymbol t.text)
  | keyword : t.kind = .keyword → AtomTokens t [] (.keyword t.text)
  | number : t.kind = .number → AtomTokens t [] (.number t.text)
  | string : t.kind = .string → AtomTokens t [] (.string (unquote t.text))
  | comment : t.kind = .comment → AtomTokens t [] (.comment t.text)
  | newline : t.kind = .newline → AtomTokens t [] .newline
  | charLiteral {value : Char} : t.kind = .charLiteral →
      CharLiteral.decode t.text.toList.tail = .ok value →
      AtomTokens t [] (.character value t.text)
  | regex {u : Token} : t.kind = .dispatch .regex → u.kind = .string →
      AtomTokens t [u] (.regex (unquote u.text))
  | varQuote {u : Token} : t.kind = .dispatch .varQuote → u.kind = .symbol →
      AtomTokens t [u] (.varQuote u.text)
  | tag {u : Token} : t.kind = .octothorpe → u.kind = .symbol → AtomTokens t [u] (.tag u.text)

/-- In front of the tokens `next`, the token `t` and the tokens behind it are a sigil. -/
inductive SigilTokens (next : List Token) (t : Token) : (ts : List Token) → Sigil → Prop
  | quote : t.kind = .apostrophe → SigilTokens next t [] .quote
  | syntaxQuote : t.kind = .backtick → SigilTokens next t [] .syntaxQuote
  | deref : t.kind = .atSign → SigilTokens next t [] .deref
  | metadata : t.kind = .circumflex ∨ t.kind = .dispatch .metadata →
      SigilTokens next t [] .metadata
  | readerDiscard : t.kind = .dispatch .discard → SigilTokens next t [] .readerDiscard
  | readerEval : t.kind = .dispatch .eval → SigilTokens next t [] .readerEval
  | unquoteSplice {u : Token} : t.kind = .tilde → u.kind = .atSign →
      SigilTokens next t [u] .unquoteSplice
  /-- A `~` is a sigil of its own unless the very next token is an `@`. -/
  | unquote : t.kind = .tilde → (∀ u ∈ next.head?, u.kind ≠ .atSign) →
      SigilTokens next t [] .unquote

/-- The token `t` and the tokens behind it open a bracket, inside a function literal or not. -/
inductive OpeningTokens (inside : Bool) (t : Token) : (ts : List Token) → Bracket → Prop
  | list : t.kind = .opening .paren → OpeningTokens inside t [] .list
  | vector : t.kind = .opening .bracket → OpeningTokens inside t [] .vector
  | map : t.kind = .opening .brace → OpeningTokens inside t [] (.map none)
  /-- Function literals do not nest. -/
  | fnLiteral {u : Token} : inside = false → t.kind = .dispatch .fnLiteral →
      u.kind = .opening .paren → OpeningTokens inside t [u] .fnLiteral
  | readerCond {u : Token} : t.kind = .dispatch .readerCond → u.kind = .opening .paren →
      OpeningTokens inside t [u] .readerCond
  | readerCondSplice {u : Token} : t.kind = .dispatch .readerCondSplice →
      u.kind = .opening .paren → OpeningTokens inside t [u] .readerCondSplice
  | namespacedMap {u v : Token} : t.kind = .dispatch .namespacedMap → u.kind = .keyword →
      v.kind = .opening .brace → OpeningTokens inside t [u, v] (.map (some u.text))
  | set {u : Token} : t.kind = .dispatch .set → u.kind = .opening .brace →
      OpeningTokens inside t [u] .set

mutual

/-- The tokens of a form, inside a function literal or not. -/
inductive Derives : (inside : Bool) → List Token → Form Position → Prop
  | atom {inside : Bool} {t : Token} {ts : List Token} {x : Atom} : AtomTokens t ts x →
      Derives inside (t :: ts) (.atom t.pos x)
  /-- Comments and line breaks between a sigil and the form under it are passed over. -/
  | prefixed {inside : Bool} {t : Token} {ts trivia us : List Token} {s : Sigil}
      {body : Form Position} : SigilTokens (trivia ++ us) t ts s →
      (∀ u ∈ trivia, isCode u.kind = false) → Derives inside us body → body.isSemantic = true →
      Derives inside (t :: ts ++ trivia ++ us) (.prefixed t.pos s body)
  | seq {inside : Bool} {t u : Token} {ts us : List Token} {b : Bracket}
      {items : List (Form Position)} : OpeningTokens inside t ts b →
      DerivesAll (b.insideOf inside) us items → u.kind = .closing (closerOf b) →
      (∀ ns, b = .map ns → items.countP Form.isPaired % 2 = 0) →
      Derives inside (t :: ts ++ us ++ [u]) (.seq t.pos b items)

/-- The tokens of neighbouring forms. -/
inductive DerivesAll : (inside : Bool) → List Token → List (Form Position) → Prop
  | nil {inside : Bool} : DerivesAll inside [] []
  | cons {inside : Bool} {ts us : List Token} {f : Form Position} {fs : List (Form Position)} :
      Derives inside ts f → DerivesAll inside us fs → DerivesAll inside (ts ++ us) (f :: fs)

end

variable {inside : Bool} {σ : State} {t : Token} {ts us : List Token}

theorem Derives.ne_nil {f : Form Position} (h : Derives inside ts f) : ts ≠ [] := by
  cases h <;> simp

/-! ## 3. What is derived is read -/

/-- The tokens of `f` deliver it wherever a form may stand. -/
def Delivers (inside : Bool) (ts : List Token) (f : Form Position) : Prop :=
  ∀ σ : State, σ.expecting = .form → insideFn σ.enclosing = inside →
    ∃ g n, g.located = f ∧
      run .everything σ ts = .ok (deliver .everything σ.roots n g σ.enclosing)

/-- The state once the forms `fs` have been delivered to the innermost bracket or the roots. -/
def State.holding (σ : State) (next : Nat) (fs : List (Form Label)) : State :=
  match σ.enclosing with
  | .bracket b pos opened items :: outer =>
    ⟨.bracket b pos opened (fs.reverse ++ items) :: outer, .form, σ.roots, next⟩
  | frames => ⟨frames, .form, fs.reverse ++ σ.roots, next⟩

/-- The tokens of `fs` deliver them in a bracket or among the roots. -/
def DeliversAll (inside : Bool) (ts : List Token) (fs : List (Form Position)) : Prop :=
  ∀ σ : State, σ.expecting = .form → insideFn σ.enclosing = inside →
    (∀ s pos outer, σ.enclosing ≠ .sigil s pos :: outer) →
    ∃ gs n, gs.map Form.located = fs ∧ run .everything σ ts = .ok (σ.holding n gs)

theorem delivers_atom {x : Atom} (h : AtomTokens t ts x) :
    Delivers inside (t :: ts) (.atom t.pos x) := by
  intro σ hexp _
  refine ⟨.atom ⟨σ.next, t.pos⟩ x, σ.next + 1, rfl, ?_⟩
  have hone : σ.form .everything t = .ok (σ.atom .everything t.pos x) →
      run .everything σ [t] = .ok (σ.atom .everything t.pos x) := fun hform => by
    rw [run_cons_ok [] ((step_form hexp).trans hform), run_nil]
  have htwo : ∀ (u : Token) (e : Expecting), σ.form .everything t = .ok (σ.expect e) →
      (σ.expect e).step .everything u = .ok (σ.atom .everything t.pos x) →
      run .everything σ [t, u] = .ok (σ.atom .everything t.pos x) := fun u e hform hstep => by
    rw [run_cons_ok [u] ((step_form hexp).trans hform), run_cons_ok [] hstep, run_nil]
  cases h with
  | symbol hkind => exact hone (by rw [State.form, hkind])
  | keyword hkind => exact hone (by rw [State.form, hkind])
  | number hkind => exact hone (by rw [State.form, hkind])
  | string hkind => exact hone (by rw [State.form, hkind])
  | comment hkind => exact hone (by rw [State.form, hkind])
  | newline hkind => exact hone (by rw [State.form, hkind])
  | charLiteral hkind hvalue => exact hone (by rw [State.form, hkind]; simp only [hvalue])
  | @regex u ht hu =>
    exact htwo u (.regex t.pos) (by rw [State.form, ht]; rfl) (if_pos hu)
  | @varQuote u ht hu =>
    exact htwo u (.varName t.pos) (by rw [State.form, ht]; rfl) (if_pos hu)
  | @tag u ht hu => exact htwo u (.tagName t.pos) (by rw [State.form, ht]) (if_pos hu)

/-- The tokens of a sigil open it. -/
theorem run_sigilTokens {s : Sigil} (h : SigilTokens us t ts s) (hus : us ≠ [])
    (hexp : σ.expecting = .form) :
    run .everything σ (t :: ts ++ us)
      = run .everything (σ.push (.sigil s t.pos)) us := by
  have hone : σ.form .everything t = .ok (σ.push (.sigil s t.pos)) →
      run .everything σ (t :: us) = run .everything (σ.push (.sigil s t.pos)) us := fun hform =>
    run_cons_ok us ((step_form hexp).trans hform)
  have htilde : t.kind = .tilde → ∀ vs : List Token,
      run .everything σ (t :: vs) = run .everything (σ.expect (.unquoted t.pos)) vs :=
    fun ht vs => run_cons_ok vs ((step_form hexp).trans (by rw [State.form, ht]))
  cases h with
  | quote ht => exact hone (by rw [State.form, ht])
  | syntaxQuote ht => exact hone (by rw [State.form, ht])
  | deref ht => exact hone (by rw [State.form, ht])
  | metadata ht =>
    rcases ht with ht | ht
    · exact hone (by rw [State.form, ht])
    · exact hone (by rw [State.form, ht]; rfl)
  | readerDiscard ht => exact hone (by rw [State.form, ht]; rfl)
  | readerEval ht => exact hone (by rw [State.form, ht]; rfl)
  | @unquoteSplice u ht hu => exact (htilde ht _).trans (run_cons_ok us (if_pos hu))
  | unquote ht hnext =>
    cases us with
    | nil => exact absurd rfl hus
    | cons u us =>
      have hu : u.kind ≠ .atSign := hnext u rfl
      rw [List.cons_append, List.nil_append, htilde ht, run_cons, step_opened hu, ← run_cons]
      rfl

/-- Comments and line breaks under a sigil take an identity and leave no other trace. -/
theorem run_trivia (hts : ∀ t ∈ ts, isCode t.kind = false) (hexp : σ.expecting = .form)
    {s : Sigil} {pos : Position} {outer : List Frame}
    (henc : σ.enclosing = .sigil s pos :: outer) :
    ∃ n, run .everything σ ts = .ok { σ with next := n } := by
  induction ts generalizing σ with
  | nil => exact ⟨σ.next, rfl⟩
  | cons t ts ih =>
    rw [List.forall_mem_cons] at hts
    have hstep : σ.step .everything t = .ok { σ with next := σ.next + 1 } := by
      obtain ⟨frames, expecting, roots, next⟩ := σ
      obtain rfl : frames = _ := henc
      obtain rfl : expecting = _ := hexp
      have hkind := hts.1
      rw [step_form rfl, State.form]
      cases hk : t.kind <;> rw [hk] at hkind <;> first | rfl | simp [isCode] at hkind
    obtain ⟨n, hrun⟩ := ih (σ := { σ with next := σ.next + 1 }) hts.2 hexp henc
    exact ⟨n, (run_cons_ok ts hstep).trans hrun⟩

theorem delivers_prefixed {trivia : List Token} {s : Sigil} {body : Form Position}
    (hsigil : SigilTokens (trivia ++ us) t ts s) (htrivia : ∀ u ∈ trivia, isCode u.kind = false)
    (hus : us ≠ []) (hsem : body.isSemantic = true) (ih : Delivers inside us body) :
    Delivers inside (t :: ts ++ trivia ++ us) (.prefixed t.pos s body) := by
  intro σ hexp hinside
  have hopen := run_sigilTokens hsigil (by simp [hus]) hexp
  obtain ⟨n, hskip⟩ := run_trivia (σ := σ.push (.sigil s t.pos)) htrivia rfl rfl
  obtain ⟨g, m, rfl, hbody⟩ := ih { σ.push (.sigil s t.pos) with next := n } rfl hinside
  refine ⟨.prefixed ⟨m, t.pos⟩ s g, m + 1, rfl, ?_⟩
  rw [List.append_assoc, hopen, run_append_ok hskip, hbody]
  exact congrArg Except.ok
    (deliver_sigil s t.pos σ.enclosing (g.isSemantic_located.symm.trans hsem))

/-- A token that opens a bracket in a state that waits for its delimiter. -/
theorem step_opener {b : Bracket} {pos : Position} (h : t.kind = .opening (closerOf b)) :
    ∃ opened, (σ.expect (.opener b pos)).step .everything t
      = .ok (σ.push (.bracket b pos opened [])) :=
  ⟨_, by simp only [State.step, State.expect, State.opener, h, if_true]; rfl⟩

/-- The tokens that open a bracket open it. -/
theorem run_openingTokens {b : Bracket} (h : OpeningTokens inside t ts b)
    (hexp : σ.expecting = .form) (hinside : insideFn σ.enclosing = inside) :
    ∃ opened, run .everything σ (t :: ts) = .ok (σ.push (.bracket b t.pos opened [])) := by
  have hone : σ.form .everything t = .ok (σ.push (.bracket b t.pos t.pos [])) →
      ∃ opened, run .everything σ [t] = .ok (σ.push (.bracket b t.pos opened [])) := fun hform =>
    ⟨t.pos, by rw [run_cons_ok [] ((step_form hexp).trans hform), run_nil]⟩
  have htwo : ∀ u : Token, σ.form .everything t = .ok (σ.expect (.opener b t.pos)) →
      u.kind = .opening (closerOf b) →
      ∃ opened, run .everything σ [t, u] = .ok (σ.push (.bracket b t.pos opened [])) := by
    intro u hform hu
    obtain ⟨opened, hopened⟩ := step_opener hu
    refine ⟨opened, ?_⟩
    rw [run_cons_ok [u] ((step_form hexp).trans hform), run_cons_ok [] hopened, run_nil]
  cases h with
  | list ht => exact hone (by rw [State.form, ht])
  | vector ht => exact hone (by rw [State.form, ht])
  | map ht => exact hone (by rw [State.form, ht])
  | @fnLiteral u hfree ht hu =>
    have houtside : σ.insideFnLiteral = false := hinside.trans hfree
    refine htwo u ?_ hu
    rw [State.form, ht]
    simp [State.dispatch, houtside]
  | @readerCond u ht hu => exact htwo u (by rw [State.form, ht]; rfl) hu
  | @readerCondSplice u ht hu => exact htwo u (by rw [State.form, ht]; rfl) hu
  | @set u ht hu => exact htwo u (by rw [State.form, ht]; rfl) hu
  | @namespacedMap u v ht hu hv =>
    have hmark : σ.form .everything t = .ok (σ.expect (.namespaceName t.pos)) := by
      rw [State.form, ht]
      rfl
    have hname : (σ.expect (.namespaceName t.pos)).step .everything u
        = .ok (σ.expect (.opener (.map (some u.text)) t.pos)) := if_pos hu
    obtain ⟨opened, hopened⟩ := @step_opener σ v (.map (some u.text)) t.pos hv
    refine ⟨opened, ?_⟩
    rw [run_cons_ok _ ((step_form hexp).trans hmark), run_cons_ok _ hname,
      run_cons_ok [] hopened, run_nil]

theorem holding_nil (hexp : σ.expecting = .form) : σ.holding σ.next [] = σ := by
  obtain ⟨frames, expecting, roots, next⟩ := σ
  obtain rfl : expecting = _ := hexp
  match frames with
  | [] => rfl
  | .sigil _ _ :: _ => rfl
  | .bracket _ _ _ _ :: _ => rfl

/-- Forms are delivered one after another. -/
theorem holding_holding (n m : Nat) (fs gs : List (Form Label)) :
    (σ.holding n fs).holding m gs = σ.holding m (fs ++ gs) := by
  obtain ⟨frames, expecting, roots, next⟩ := σ
  match frames with
  | [] => simp [State.holding]
  | .sigil _ _ :: _ => simp [State.holding]
  | .bracket _ _ _ _ :: _ => simp [State.holding]

/-- A bracket and the roots keep whatever is delivered. -/
theorem deliver_eq_holding (hopen : ∀ s pos outer, σ.enclosing ≠ .sigil s pos :: outer)
    (n : Nat) (f : Form Label) :
    deliver .everything σ.roots n f σ.enclosing = σ.holding n [f] := by
  obtain ⟨frames, expecting, roots, next⟩ := σ
  match frames with
  | [] => simp [deliver, State.holding]
  | .sigil s pos :: outer => exact absurd rfl (hopen s pos outer)
  | .bracket _ _ _ _ :: _ => simp [deliver, State.holding]

theorem holding_expecting (n : Nat) (fs : List (Form Label)) :
    (σ.holding n fs).expecting = .form := by
  unfold State.holding
  split <;> rfl

theorem insideFn_holding (n : Nat) (fs : List (Form Label)) :
    insideFn (σ.holding n fs).enclosing = insideFn σ.enclosing := by
  unfold State.holding
  split
  · next henc => simp [henc]
  · rfl

theorem holding_ne_sigil (hopen : ∀ s pos outer, σ.enclosing ≠ .sigil s pos :: outer)
    (n : Nat) (fs : List (Form Label)) (s : Sigil) (pos : Position) (outer : List Frame) :
    (σ.holding n fs).enclosing ≠ .sigil s pos :: outer := by
  unfold State.holding
  split
  · simp
  · exact hopen s pos outer

theorem deliversAll_nil : DeliversAll inside [] [] := by
  intro σ hexp _ _
  exact ⟨[], σ.next, rfl, by rw [run_nil, holding_nil hexp]⟩

theorem deliversAll_cons {f : Form Position} {fs : List (Form Position)}
    (hf : Delivers inside ts f) (hfs : DeliversAll inside us fs) :
    DeliversAll inside (ts ++ us) (f :: fs) := by
  intro σ hexp hinside hopen
  obtain ⟨g, n, rfl, hfirst⟩ := hf σ hexp hinside
  rw [deliver_eq_holding hopen] at hfirst
  obtain ⟨gs, m, rfl, hrest⟩ := hfs (σ.holding n [g]) (holding_expecting n [g])
    ((insideFn_holding n [g]).trans hinside) (holding_ne_sigil hopen n [g])
  refine ⟨g :: gs, m, rfl, ?_⟩
  rw [run_append_ok hfirst, hrest, holding_holding]
  rfl

theorem delivers_seq {u : Token} {b : Bracket} {items : List (Form Position)}
    (hopening : OpeningTokens inside t ts b) (hclosing : u.kind = .closing (closerOf b))
    (heven : ∀ ns, b = .map ns → items.countP Form.isPaired % 2 = 0)
    (ih : DeliversAll (b.insideOf inside) us items) :
    Delivers inside (t :: ts ++ us ++ [u]) (.seq t.pos b items) := by
  intro σ hexp hinside
  obtain ⟨opened, hopen⟩ := run_openingTokens hopening hexp hinside
  obtain ⟨gs, n, rfl, hitems⟩ := ih (σ.push (.bracket b t.pos opened [])) rfl
    (by rw [← hinside]; exact insideFn_bracket ..) (by simp [State.push])
  refine ⟨.seq ⟨n, t.pos⟩ b gs, n + 1, by simp, ?_⟩
  rw [List.append_assoc, run_append_ok hopen, run_append_ok hitems, run_cons_ok [], run_nil]
  rw [step_form (holding_expecting n gs)]
  simp only [State.form, hclosing, State.close, State.holding, State.push, List.append_nil,
    List.reverse_reverse, ne_eq, not_true_eq_false, if_false]
  cases b with
  | map ns =>
    have hpaired := heven ns rfl
    rw [Form.countP_isPaired_located] at hpaired
    simp [hpaired]
  | _ => rfl

mutual

/-- The tokens of a form deliver it. -/
theorem run_of_derives {inside : Bool} {ts : List Token} {f : Form Position}
    (h : Derives inside ts f) : Delivers inside ts f :=
  match h with
  | .atom hatom => delivers_atom hatom
  | .prefixed hsigil htrivia hbody hsem =>
    delivers_prefixed hsigil htrivia hbody.ne_nil hsem (run_of_derives hbody)
  | .seq hopening hitems hclosing heven =>
    delivers_seq hopening hclosing heven (run_of_derivesAll hitems)

/-- The tokens of neighbouring forms deliver them. -/
theorem run_of_derivesAll {inside : Bool} {ts : List Token} {fs : List (Form Position)}
    (h : DerivesAll inside ts fs) : DeliversAll inside ts fs :=
  match h with
  | .nil => deliversAll_nil
  | .cons hf hfs => deliversAll_cons (run_of_derives hf) (run_of_derivesAll hfs)

end

end Reader

end CljFormat
