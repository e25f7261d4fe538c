/-
CljFormat.Proofs.Reader.Completions — every form that reading a source completes.

The document that a source is read as holds the forms that were kept. A form that is dropped was
complete before it was dropped, and has its identity and its place like any other. `allForms` lists
them all: each token that is taken completes a form, and the sigils that it is handed to, or it
completes nothing (`completes_of_step`).

The identities of these forms are the numbers from zero on without a gap, and what the source is
read as is among them (`ids_allForms`, `mem_allForms`). So each form of a source has exactly one
entry.
-/
import CljFormat.Proofs.Reader.Built

namespace CljFormat.Reader

variable {options : Options} {σ σ' : State} {t : Token}

/-! ## 1. Every form that is complete -/

/-- The forms that are complete once `f` is handed to the innermost of `frames`: `f`, and those of
the sigils it completes. -/
def completed (next : Nat) (f : Form Label) : (frames : List Frame) → List (Form Label)
  | .sigil s pos :: outer =>
    if f.isSemantic then f :: completed (next + 1) (.prefixed ⟨next, pos⟩ s f) outer else [f]
  | _ => [f]

/-- The same state with nothing delivered, and nothing open but a bracket that `t` may close. -/
def State.alone (σ : State) (t : Token) : State :=
  { σ with
    roots := []
    enclosing := match t.kind, σ.enclosing with
      | .closing _, .bracket b pos opened items :: _ => [.bracket b pos opened items]
      | _, _ => [] }

/-- The form that `t` completes, before it is handed to anything: the one that is delivered where
nothing else is open. -/
def State.first? (σ : State) (t : Token) : Option (Form Label) :=
  match (σ.alone t).step .everything t with
  | .ok τ => τ.roots.head?
  | .error _ => none

/-- The frames that the form is handed to. -/
def State.around (σ : State) (t : Token) : List Frame :=
  match t.kind with
  | .closing _ => σ.enclosing.tail
  | _ => σ.enclosing

/-- The forms that are complete once `t` is taken. -/
def State.completes (σ : State) (t : Token) : List (Form Label) :=
  match σ.opened.first? t with
  | some f => completed (σ.next + 1) f (σ.opened.around t)
  | none => []

/-- The forms that the tokens `ts` complete, up to one that is refused. -/
def completions (options : Options) : State → (ts : List Token) → List (Form Label)
  | _, [] => []
  | σ, t :: ts =>
    match σ.step options t with
    | .ok σ' => σ.completes t ++ completions options σ' ts
    | .error _ => []

/-- The forms that reading `source` completes, kept or dropped, in the order of their
identities. -/
def allForms (options : Options) (source : String) : List (Form Label) :=
  completions options .start (scan source).tokens

/-! ## 2. Steps complete them -/

theorem first_of_step {τ : State} (h : (σ.alone t).step .everything t = .ok τ) :
    σ.first? t = τ.roots.head? := by
  rw [State.first?, h]

theorem mem_of_mem_around {frame : Frame} (h : frame ∈ σ.around t) : frame ∈ σ.enclosing := by
  unfold State.around at h
  split at h
  · exact List.mem_of_mem_tail h
  · exact h

theorem alone_step (hexp : σ.expecting = .form) :
    (σ.alone t).step .everything t = (σ.alone t).form .everything t :=
  step_form hexp

/-- A step that a token does not complete a form with hands on what there is. -/
structure Keeps (σ σ' : State) : Prop where
  next : σ'.next = σ.next
  roots : σ'.roots = σ.roots
  items : ∀ frame ∈ σ'.enclosing, frame.items = [] ∨ frame ∈ σ.enclosing

/-- What taking a token does: it completes a form and hands it on, or it completes none. -/
def Completes (options : Options) (σ : State) (t : Token) (σ' : State) : Prop :=
  (σ.first? t = none ∧ Keeps σ σ') ∨
    ∃ f, σ.first? t = some f ∧ f.note.id = σ.next ∧
      (∀ g ∈ f.parts, ∃ frame ∈ σ.enclosing, g ∈ frame.items) ∧
      σ' = deliver options σ.roots (σ.next + 1) f (σ.around t)

theorem completes_push {frame : Frame} (hframe : frame.items = [])
    (h : (σ.alone t).step .everything t = .ok ((σ.alone t).push frame)) :
    Completes options σ t (σ.push frame) :=
  .inl ⟨first_of_step h, rfl, rfl, List.forall_mem_cons.mpr ⟨.inl hframe, fun _ h => .inr h⟩⟩

theorem completes_expect {e : Expecting}
    (h : (σ.alone t).step .everything t = .ok ((σ.alone t).expect e)) :
    Completes options σ t (σ.expect e) :=
  .inl ⟨first_of_step h, rfl, rfl, fun _ h => .inr h⟩

theorem completes_atom {pos : Position} {x : Atom} (ht : ∀ d, t.kind ≠ .closing d)
    (h : (σ.alone t).step .everything t = .ok ((σ.alone t).atom .everything pos x)) :
    Completes options σ t (σ.atom options pos x) := by
  have halone : (σ.alone t).enclosing = [] := by
    unfold State.alone
    split
    · exact absurd ‹_› (ht _)
    · rfl
  have haround : σ.around t = σ.enclosing := by
    unfold State.around
    split
    · exact absurd ‹_› (ht _)
    · rfl
  refine .inr ⟨.atom ⟨σ.next, pos⟩ x, ?_, rfl, by simp [Form.parts, Form.shape, Shape.parts], ?_⟩
  · rw [first_of_step h, State.atom, halone]
    simp [deliver, State.alone]
  · rw [State.atom, haround]

/-- Whether a closing delimiter fits the innermost bracket has nothing to do with what is around
it. -/
theorem close_alone {τ : State} {b : Bracket} {pos opened : Position} {items : List (Form Label)}
    {outer outer' : List Frame} {d : Delimiter} (h : σ.close options d t = .ok σ')
    (henc : σ.enclosing = .bracket b pos opened items :: outer)
    (henc' : τ.enclosing = .bracket b pos opened items :: outer') :
    τ.close .everything d t
      = .ok (deliver .everything τ.roots (τ.next + 1) (.seq ⟨τ.next, pos⟩ b items.reverse)
          outer') := by
  unfold State.close at h ⊢
  rw [henc] at h
  rw [henc']
  dsimp only at h ⊢
  split at h
  · cases h
  · next hcloser =>
    rw [if_neg hcloser]
    generalize (_ && _ : Bool) = odd at h ⊢
    cases odd with
    | true => cases h
    | false => rfl

theorem completes_close {d : Delimiter} (ht : t.kind = .closing d) (hexp : σ.expecting = .form)
    (h : σ.close options d t = .ok σ') : Completes options σ t σ' := by
  obtain ⟨b, pos, opened, items, outer, henc, -, -, rfl⟩ := close_cases h
  have halone : (σ.alone t).enclosing = .bracket b pos opened items :: [] := by
    simp only [State.alone, ht, henc]
  have hclose := close_alone h henc halone
  have hform : (σ.alone t).form .everything t = (σ.alone t).close .everything d t := by
    rw [State.form, ht]
  have hstep := (alone_step hexp).trans (hform.trans hclose)
  refine .inr ⟨.seq ⟨σ.next, pos⟩ b items.reverse, ?_, rfl, ?_, ?_⟩
  · rw [first_of_step hstep]
    simp [deliver, State.alone]
  · intro g hg
    refine ⟨.bracket b pos opened items, by simp [henc], ?_⟩
    simpa [Form.parts, Form.shape, Shape.parts, Frame.items] using hg
  · simp only [State.around, ht, henc, List.tail_cons]

theorem completes_dispatch {d : Dispatch} (ht : t.kind = .dispatch d)
    (hexp : σ.expecting = .form) (h : σ.dispatch t.pos d = .ok σ') : Completes options σ t σ' := by
  have hform : (σ.alone t).form .everything t = (σ.alone t).dispatch t.pos d := by
    rw [State.form, ht]
  have halone : ∀ {τ}, (σ.alone t).dispatch t.pos d = .ok τ →
      (σ.alone t).step .everything t = .ok τ := fun hd => (alone_step hexp).trans (hform.trans hd)
  have hpush : ∀ s, (σ.alone t).dispatch t.pos d = .ok ((σ.alone t).push (.sigil s t.pos)) →
      Completes options σ t (σ.push (.sigil s t.pos)) :=
    fun s hd => completes_push rfl (halone hd)
  cases d with
  | fnLiteral =>
    simp only [State.dispatch] at h
    split at h
    · cases h
    · cases h
      refine completes_expect (halone ?_)
      have houtside : (σ.alone t).insideFnLiteral = false := by
        simp [State.insideFnLiteral, State.alone, ht]
      simp [State.dispatch, houtside]
  | discard => cases h; exact hpush _ rfl
  | eval => cases h; exact hpush _ rfl
  | metadata => cases h; exact hpush _ rfl
  | _ => cases h; exact completes_expect (halone rfl)

theorem completes_form (hexp : σ.expecting = .form) (h : σ.form options t = .ok σ') :
    Completes options σ t σ' := by
  have halone : ∀ {τ}, (σ.alone t).form .everything t = .ok τ →
      (σ.alone t).step .everything t = .ok τ := fun hform => (alone_step hexp).trans hform
  unfold State.form at h
  split at h
  case h_2 ht =>
    split at h
    · next value hvalue =>
      cases h
      refine completes_atom (by simp [ht]) (halone ?_)
      rw [State.form, ht]
      simp only [hvalue]
    · cases h
  case h_8 ht => cases h; exact completes_push rfl (halone (by rw [State.form, ht]))
  case h_9 ht => cases h; exact completes_push rfl (halone (by rw [State.form, ht]))
  case h_10 ht => cases h; exact completes_push rfl (halone (by rw [State.form, ht]))
  case h_11 d ht => exact completes_close ht hexp h
  case h_12 ht => cases h; exact completes_push rfl (halone (by rw [State.form, ht]))
  case h_13 ht => cases h; exact completes_push rfl (halone (by rw [State.form, ht]))
  case h_14 ht => cases h; exact completes_push rfl (halone (by rw [State.form, ht]))
  case h_15 ht => cases h; exact completes_push rfl (halone (by rw [State.form, ht]))
  case h_16 ht => cases h; exact completes_expect (halone (by rw [State.form, ht]))
  case h_17 ht => cases h; exact completes_expect (halone (by rw [State.form, ht]))
  case h_18 d ht => exact completes_dispatch ht hexp h
  all_goals
    next ht =>
      cases h
      exact completes_atom (by simp [ht]) (halone (by rw [State.form, ht]))

theorem completes_opener {b : Bracket} {pos : Position} (hexp : σ.expecting = .opener b pos)
    (h : σ.opener b pos t = .ok σ') : Completes options σ t σ' := by
  have hopener : (σ.alone t).step .everything t = (σ.alone t).opener b pos t := by
    rw [State.step, State.alone, hexp]
  unfold State.opener at h
  split at h
  · next ht =>
    cases h
    exact completes_push rfl (hopener.trans (if_pos ht))
  · split at h <;> cases h

theorem completes_settled (hsettled : ∀ pos, σ.expecting ≠ .unquoted pos)
    (h : σ.step options t = .ok σ') : Completes options σ t σ' := by
  have hatom : ∀ (kind : Token.Kind) {pos : Position} {x : Atom}, (∀ d, kind ≠ .closing d) →
      (∀ (options : Options) (τ : State), τ.expecting = σ.expecting → τ.step options t
        = if t.kind = kind then .ok (τ.atom options pos x) else unexpected t) →
      Completes options σ t σ' := by
    intro kind pos x hkind hstep
    rw [hstep options σ rfl] at h
    split at h
    · next ht =>
      cases h
      exact completes_atom (by rw [ht]; exact hkind) (by rw [hstep _ (σ.alone t) rfl, if_pos ht])
    · cases h
  cases hexp : σ.expecting with
  | form => exact completes_form hexp ((step_form hexp).symm.trans h)
  | unquoted pos => exact absurd hexp (hsettled pos)
  | opener b pos =>
    rw [State.step, hexp] at h
    exact completes_opener hexp h
  | regex pos => exact hatom .string (by simp) fun _ τ hτ => by rw [State.step, hτ, hexp]
  | varName pos => exact hatom .symbol (by simp) fun _ τ hτ => by rw [State.step, hτ, hexp]
  | tagName pos => exact hatom .symbol (by simp) fun _ τ hτ => by rw [State.step, hτ, hexp]
  | namespaceName pos =>
    have hstep : ∀ (options : Options) (τ : State), τ.expecting = σ.expecting → τ.step options t
        = if t.kind = .keyword then .ok (τ.expect (.opener (.map (some t.text)) pos))
          else unexpected t := fun _ τ hτ => by rw [State.step, hτ, hexp]
    rw [hstep options σ rfl] at h
    split at h
    · next ht =>
      cases h
      exact completes_expect (by rw [hstep _ (σ.alone t) rfl, if_pos ht])
    · cases h

/-- Every step completes a form or none, behind a `~` that no `@` follows with its sigil open. -/
theorem completes_of_step (h : σ.step options t = .ok σ') : Completes options σ.opened t σ' := by
  by_cases hat : t.kind = .atSign
  · cases hexp : σ.expecting with
    | unquoted pos =>
      have hopened : σ.opened = σ.push (.sigil .unquote pos) := by rw [State.opened, hexp]
      rw [State.step, hexp] at h
      obtain rfl := Except.ok.inj ((if_pos hat).symm.trans h)
      rw [hopened]
      have hstep : ((σ.push (.sigil .unquote pos)).alone t).step .everything t
          = .ok (((σ.push (.sigil .unquote pos)).alone t).push (.sigil .deref t.pos)) :=
        (alone_step rfl).trans (by rw [State.form, hat])
      refine .inl ⟨first_of_step hstep, rfl, rfl, List.forall_mem_cons.mpr ⟨.inl rfl, ?_⟩⟩
      exact fun _ h => .inr (List.mem_cons_of_mem _ h)
    | _ =>
      have hopened : σ.opened = σ := by rw [State.opened, hexp]
      rw [hopened]
      exact completes_settled (by simp [hexp]) h
  · exact completes_settled opened_ne_unquoted ((step_opened hat).symm.trans h)

/-! ## 3. They have all the identities -/

theorem ids_completed {roots : List (Form Label)} {n : Nat} {f : Form Label} {frames : List Frame}
    (hf : f.note.id = n) :
    List.range n ++ (completed (n + 1) f frames).map (·.note.id)
      = List.range (deliver options roots (n + 1) f frames).next := by
  induction frames generalizing f n with
  | nil => simp [completed, deliver, hf, List.range_succ]
  | cons frame outer ih =>
    cases frame with
    | bracket b pos opened items => simp [completed, deliver, hf, List.range_succ]
    | sigil s pos =>
      rw [completed, deliver]
      split
      · rw [← ih (n := n + 1) rfl, List.map_cons, hf, List.range_succ, List.append_assoc]
        rfl
      · simp [hf, List.range_succ]

theorem next_opened : σ.opened.next = σ.next := by
  unfold State.opened
  split <;> rfl

theorem ids_completes (h : σ.step options t = .ok σ') :
    List.range σ.next ++ (σ.completes t).map (·.note.id) = List.range σ'.next := by
  have hnext : σ.opened.next = σ.next := next_opened
  rcases completes_of_step h with ⟨hnone, hkeeps⟩ | ⟨f, hf, hid, -, rfl⟩
  · simp [State.completes, hnone, hkeeps.next, hnext]
  · rw [hnext] at hid ⊢
    rw [State.completes, hf]
    exact ids_completed hid

theorem ids_completions {ts : List Token} (h : run options σ ts = .ok σ') :
    List.range σ.next ++ (completions options σ ts).map (·.note.id) = List.range σ'.next := by
  induction ts generalizing σ with
  | nil =>
    obtain rfl := Except.ok.inj h
    simp [completions]
  | cons t ts ih =>
    obtain ⟨τ, hstep, hrun⟩ := step_of_run h
    simp only [completions, hstep, List.map_append]
    rw [← List.append_assoc, ids_completes hstep, ih hrun]

/-- The forms of a source have the identities that were given out, each one once. -/
theorem ids_allForms {source : String} {d : Document} (h : read options source = .ok d) :
    (allForms options source).map (·.note.id) = List.range d.size := by
  obtain ⟨σ, hrun, -, -, -, rfl⟩ := read_eq_ok.mp h
  exact ids_completions hrun

/-! ## 4. What a source is read as is among them -/

/-- The forms that the state holds, and those below them, are all in `log`. -/
structure State.Logged (log : List (Form Label)) (σ : State) : Prop where
  roots : ∀ f ∈ σ.roots, f.nodes ⊆ log
  items : ∀ frame ∈ σ.enclosing, ∀ f ∈ frame.items, f.nodes ⊆ log

theorem State.Logged.mono {log log' : List (Form Label)} (h : σ.Logged log) (hlog : log ⊆ log') :
    σ.Logged log' :=
  ⟨fun f hf => List.Subset.trans (h.roots f hf) hlog,
    fun frame hframe f hf => List.Subset.trans (h.items frame hframe f hf) hlog⟩

theorem State.Logged.start : State.start.Logged [] :=
  ⟨by simp [State.start], by simp [State.start]⟩

theorem logged_kept {log fs : List (Form Label)} {f : Form Label} (hf : f.nodes ⊆ log)
    (hfs : ∀ g ∈ fs, g.nodes ⊆ log) :
    ∀ g ∈ if options.keeps f then f :: fs else fs, g.nodes ⊆ log := by
  split
  · exact List.forall_mem_cons.mpr ⟨hf, hfs⟩
  · exact hfs

theorem logged_deliver {log roots : List (Form Label)} {n : Nat} {f : Form Label}
    {frames : List Frame} (hroots : ∀ r ∈ roots, r.nodes ⊆ log)
    (hframes : ∀ frame ∈ frames, ∀ g ∈ frame.items, g.nodes ⊆ log)
    (hparts : ∀ g ∈ f.parts, g.nodes ⊆ log) (hcompleted : completed n f frames ⊆ log) :
    (deliver options roots n f frames).Logged log := by
  have hnodes : ∀ {f : Form Label}, f ∈ log → (∀ g ∈ f.parts, g.nodes ⊆ log) →
      f.nodes ⊆ log := by
    intro f hf hparts g hg
    rcases Form.mem_nodes_iff.mp hg with rfl | ⟨k, hk, hg⟩
    · exact hf
    · exact hparts k hk hg
  induction frames generalizing f n with
  | nil =>
    have hf : f.nodes ⊆ log := hnodes (hcompleted List.mem_cons_self) hparts
    exact ⟨logged_kept hf hroots, by simp [deliver]⟩
  | cons frame outer ih =>
    obtain ⟨hitems, houter⟩ := List.forall_mem_cons.mp hframes
    cases frame with
    | bracket b pos opened items =>
      have hf : f.nodes ⊆ log := hnodes (hcompleted List.mem_cons_self) hparts
      exact ⟨hroots, List.forall_mem_cons.mpr ⟨logged_kept hf hitems, houter⟩⟩
    | sigil s pos =>
      rw [completed] at hcompleted
      rw [deliver]
      split
      · next hsem =>
        rw [if_pos hsem, List.cons_subset] at hcompleted
        have hf : f.nodes ⊆ log := hnodes hcompleted.1 hparts
        exact ih houter (List.forall_mem_singleton.mpr hf) hcompleted.2
      · exact ⟨hroots, List.forall_mem_cons.mpr ⟨hitems, houter⟩⟩

theorem logged_step {log : List (Form Label)} (hσ : σ.Logged log)
    (h : σ.step options t = .ok σ') : σ'.Logged (log ++ σ.completes t) := by
  have hopened : σ.opened.Logged log := by
    unfold State.opened
    split
    · exact ⟨hσ.roots, List.forall_mem_cons.mpr ⟨by simp [Frame.items], hσ.items⟩⟩
    · exact hσ
  have hlater := hopened.mono (List.subset_append_left log (σ.completes t))
  rcases completes_of_step h with ⟨-, hkeeps⟩ | ⟨f, hf, -, hparts, rfl⟩
  · refine ⟨hkeeps.roots ▸ hlater.roots, fun frame hframe f hf => ?_⟩
    rcases hkeeps.items frame hframe with hnone | hframe
    · rw [hnone] at hf
      cases hf
    · exact hlater.items frame hframe f hf
  · have hcompletes : σ.completes t = completed (σ.opened.next + 1) f (σ.opened.around t) := by
      rw [State.completes, hf, next_opened]
    refine logged_deliver hlater.roots ?_ ?_ (hcompletes ▸ List.subset_append_right _ _)
    · exact fun frame hframe => hlater.items frame (mem_of_mem_around hframe)
    · intro g hg
      obtain ⟨frame, hframe, hg⟩ := hparts g hg
      exact hlater.items frame hframe g hg

theorem logged_run {log : List (Form Label)} {ts : List Token} (hσ : σ.Logged log)
    (h : run options σ ts = .ok σ') : σ'.Logged (log ++ completions options σ ts) := by
  induction ts generalizing σ log with
  | nil =>
    obtain rfl := Except.ok.inj h
    simpa [completions] using hσ
  | cons t ts ih =>
    obtain ⟨τ, hstep, hrun⟩ := step_of_run h
    simp only [completions, hstep]
    rw [← List.append_assoc]
    exact ih (logged_step hσ hstep) hrun

/-- What a source is read as, and every form below it, is among the forms of the source. -/
theorem mem_allForms {source : String} {d : Document} (h : read options source = .ok d) :
    ∀ f ∈ Form.nodesAll d.roots, f ∈ allForms options source := by
  obtain ⟨σ, hrun, -, -, -, rfl⟩ := read_eq_ok.mp h
  have hlogged := logged_run .start hrun
  intro f hf
  rw [Form.nodesAll_eq_flatMap] at hf
  obtain ⟨r, hr, hf⟩ := List.mem_flatMap.mp hf
  exact hlogged.roots r (List.mem_reverse.mp hr) hf

end CljFormat.Reader
