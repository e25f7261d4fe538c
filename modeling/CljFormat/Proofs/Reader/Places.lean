/-
CljFormat.Proofs.Reader.Places — every form and every error is at the place of a token.

The reader copies places and computes none. A form starts where its first token does, an open
bracket remembers its opening delimiter, and an error is reported at one of these places or at the
end of the source. So whatever is true of the places of all tokens and of the end is true of every
place that the reader holds (`State.Placed`), and one step keeps it, whether it succeeds or fails
(`placed_step`).

The place of a form that is dropped is that of a form too: `places_completions` speaks of all forms
that reading completes. Together with the places of tokens this gives `exact_places`: whatever comes
of a source, its places are exact.
-/
import CljFormat.Proofs.Reader.Completions
import CljFormat.Proofs.Token.Places

namespace CljFormat.Reader

variable {options : Options} {σ σ' : State} {t : Token} {P : Position → Prop}

/-! ## 1. Places that a state holds -/

/-- The places that a frame remembers. -/
def Frame.places : Frame → List Position
  | .bracket _ pos opened _ => [pos, opened]
  | .sigil _ pos => [pos]

/-- The place of the tokens in front of the one that is waited for. -/
def Expecting.place? : Expecting → Option Position
  | .form => none
  | .opener _ pos | .regex pos | .varName pos | .tagName pos | .namespaceName pos
  | .unquoted pos => some pos

/-- What holds of every place in the state: of the roots, and of what is still open. -/
structure State.Placed (P : Position → Prop) (σ : State) : Prop where
  roots : ∀ f ∈ σ.roots, P f.note.pos
  frames : ∀ frame ∈ σ.enclosing, ∀ p ∈ frame.places, P p
  waiting : ∀ p ∈ σ.expecting.place?, P p

/-- What holds of every place in the state that a step leads to, or of the place of its error. -/
def PlacedResult (P : Position → Prop) : Except SyntaxError State → Prop
  | .ok σ => σ.Placed P
  | .error e => P e.pos

theorem State.Placed.start : State.start.Placed P :=
  ⟨by simp [State.start], by simp [State.start], by simp [State.start, Expecting.place?]⟩

theorem State.Placed.push {frame : Frame} (h : σ.Placed P) (hframe : ∀ p ∈ frame.places, P p) :
    (σ.push frame).Placed P :=
  ⟨h.roots, List.forall_mem_cons.mpr ⟨hframe, h.frames⟩, by simp [State.push, Expecting.place?]⟩

theorem State.Placed.expect {e : Expecting} (h : σ.Placed P) (he : ∀ p ∈ e.place?, P p) :
    (σ.expect e).Placed P :=
  ⟨h.roots, h.frames, he⟩

theorem placed_deliver {roots : List (Form Label)} {frames : List Frame} {n : Nat}
    {f : Form Label} (hroots : ∀ r ∈ roots, P r.note.pos)
    (hframes : ∀ frame ∈ frames, ∀ p ∈ frame.places, P p) (hf : P f.note.pos) :
    (deliver options roots n f frames).Placed P := by
  have hnone : ∀ p ∈ Expecting.form.place?, P p := by simp [Expecting.place?]
  induction frames generalizing f n with
  | nil =>
    refine ⟨?_, by simp [deliver], hnone⟩
    simp only [deliver]
    split
    · exact List.forall_mem_cons.mpr ⟨hf, hroots⟩
    · exact hroots
  | cons frame outer ih =>
    obtain ⟨hframe, houter⟩ := List.forall_mem_cons.mp hframes
    cases frame with
    | bracket b pos opened items =>
      exact ⟨hroots, List.forall_mem_cons.mpr ⟨hframe, houter⟩, hnone⟩
    | sigil s pos =>
      simp only [deliver]
      split
      · exact ih houter (hframe pos List.mem_cons_self)
      · exact ⟨hroots, hframes, hnone⟩

/-! ## 2. Steps keep it -/

theorem State.Placed.atom {pos : Position} (h : σ.Placed P) (hpos : P pos) (x : Atom) :
    (σ.atom options pos x).Placed P :=
  placed_deliver h.roots h.frames hpos

theorem placed_close (h : σ.Placed P) (ht : P t.pos) (d : Delimiter) :
    PlacedResult P (σ.close options d t) := by
  unfold State.close
  split
  · next b pos opened items outer henc =>
    have hframes := h.frames
    rw [henc] at hframes
    obtain ⟨hframe, houter⟩ := List.forall_mem_cons.mp hframes
    have hpos : P pos := hframe pos List.mem_cons_self
    split
    · exact ht
    · dsimp only
      generalize (_ && _ : Bool) = odd
      cases odd with
      | true => exact hpos
      | false => exact placed_deliver h.roots houter hpos
  · exact ht

theorem placed_dispatch {pos : Position} (h : σ.Placed P) (hpos : P pos) (d : Dispatch) :
    PlacedResult P (σ.dispatch pos d) := by
  have hexpect : ∀ {e : Expecting}, e.place? = some pos → (σ.expect e).Placed P := by
    intro e he
    refine h.expect fun p hp => ?_
    rw [he] at hp
    exact Option.some.inj hp ▸ hpos
  have hpush : ∀ s, (σ.push (.sigil s pos)).Placed P := fun s => h.push (by simpa [Frame.places])
  cases d with
  | fnLiteral =>
    simp only [State.dispatch]
    split
    · exact hpos
    · exact hexpect rfl
  | discard => exact hpush .readerDiscard
  | eval => exact hpush .readerEval
  | metadata => exact hpush .metadata
  | _ => exact hexpect rfl

theorem placed_form (h : σ.Placed P) (ht : P t.pos) : PlacedResult P (σ.form options t) := by
  have hpush : ∀ s, (σ.push (.sigil s t.pos)).Placed P :=
    fun s => h.push (by simpa [Frame.places])
  have hopen : ∀ b, (σ.push (.bracket b t.pos t.pos [])).Placed P :=
    fun b => h.push (by simpa [Frame.places])
  unfold State.form
  split
  case h_2 =>
    split
    · exact h.atom ht _
    · exact ht
  case h_8 => exact hopen .list
  case h_9 => exact hopen .vector
  case h_10 => exact hopen (.map none)
  case h_11 d _ => exact placed_close h ht d
  case h_12 => exact hpush .deref
  case h_13 => exact hpush .quote
  case h_14 => exact hpush .syntaxQuote
  case h_15 => exact hpush .metadata
  case h_16 => exact h.expect (by simpa [Expecting.place?])
  case h_17 => exact h.expect (by simpa [Expecting.place?])
  case h_18 d _ => exact placed_dispatch h ht d
  all_goals exact h.atom ht _

theorem placed_opener {pos : Position} (h : σ.Placed P) (hpos : P pos) (ht : P t.pos)
    (b : Bracket) : PlacedResult P (σ.opener b pos t) := by
  unfold State.opener
  split
  · refine h.push ?_
    cases b <;> simp [Frame.places, hpos, ht]
  · split <;> exact ht

/-- Whatever holds of the places in a state and of the place of a token holds of the places behind
the token, and of the place where the token is refused. -/
theorem placed_step (h : σ.Placed P) (ht : P t.pos) : PlacedResult P (σ.step options t) := by
  have hwaiting := h.waiting
  unfold State.step
  split
  case h_1 => exact placed_form h ht
  case h_2 b pos hexp =>
    rw [hexp] at hwaiting
    exact placed_opener h (hwaiting pos rfl) ht b
  case h_6 pos hexp =>
    rw [hexp] at hwaiting
    split
    · exact h.expect (by simpa [Expecting.place?] using hwaiting pos rfl)
    · exact ht
  case h_7 pos hexp =>
    rw [hexp] at hwaiting
    have hpush : ∀ s, (σ.push (.sigil s pos)).Placed P :=
      fun s => h.push (by simpa [Frame.places] using hwaiting pos rfl)
    split
    · exact hpush .unquoteSplice
    · exact placed_form (hpush .unquote) ht
  all_goals
    next pos hexp =>
      rw [hexp] at hwaiting
      split
      · exact h.atom (hwaiting pos rfl) _
      · exact ht

theorem placed_run {ts : List Token} (h : σ.Placed P) (hts : ∀ t ∈ ts, P t.pos) :
    PlacedResult P (run options σ ts) := by
  induction ts generalizing σ with
  | nil => exact h
  | cons t ts ih =>
    obtain ⟨ht, hts⟩ := List.forall_mem_cons.mp hts
    have hstep : PlacedResult P (σ.step options t) := placed_step h ht
    rw [run_cons]
    cases hσ : σ.step options t with
    | error e =>
      rw [hσ] at hstep
      exact hstep
    | ok τ =>
      rw [hσ] at hstep
      exact ih hstep hts

theorem place_of_finish {pos : Position} {e : SyntaxError} (h : σ.Placed P) (hpos : P pos)
    (herror : σ.finish pos = .error e) : P e.pos := by
  unfold State.finish at herror
  split at herror
  · cases herror
  · next henc =>
    have hopened := h.frames
    rw [henc] at hopened
    exact Except.error.inj herror ▸ hopened _ List.mem_cons_self _ (by simp [Frame.places])
  · exact Except.error.inj herror ▸ hpos

/-! ## 3. Forms that are complete are at places of tokens -/

theorem placed_opened (h : σ.Placed P) : σ.opened.Placed P := by
  unfold State.opened
  split
  · next pos hexp =>
    have hwaiting := h.waiting
    rw [hexp] at hwaiting
    exact h.push (by simpa [Frame.places] using hwaiting pos rfl)
  · exact h

theorem State.Placed.alone (h : σ.Placed P) : (σ.alone t).Placed P := by
  refine ⟨by simp [State.alone], ?_, h.waiting⟩
  simp only [State.alone]
  split
  · next b pos opened items outer _ henc =>
    have hframes := h.frames
    rw [henc] at hframes
    exact List.forall_mem_singleton.mpr (hframes _ List.mem_cons_self)
  · simp

theorem place_of_first {f : Form Label} (h : σ.Placed P) (ht : P t.pos)
    (hf : σ.first? t = some f) : P f.note.pos := by
  have hstep : PlacedResult P ((σ.alone t).step .everything t) := placed_step h.alone ht
  unfold State.first? at hf
  split at hf
  · next τ hτ =>
    rw [hτ] at hstep
    exact hstep.roots f (List.mem_of_mem_head? hf)
  · cases hf

theorem places_completed {n : Nat} {f : Form Label} {frames : List Frame} (hf : P f.note.pos)
    (hframes : ∀ frame ∈ frames, ∀ p ∈ frame.places, P p) :
    ∀ g ∈ completed n f frames, P g.note.pos := by
  induction frames generalizing f n with
  | nil => exact List.forall_mem_singleton.mpr hf
  | cons frame outer ih =>
    obtain ⟨hframe, houter⟩ := List.forall_mem_cons.mp hframes
    cases frame with
    | bracket b pos opened items => exact List.forall_mem_singleton.mpr hf
    | sigil s pos =>
      rw [completed]
      split
      · exact List.forall_mem_cons.mpr ⟨hf, ih (hframe pos List.mem_cons_self) houter⟩
      · exact List.forall_mem_singleton.mpr hf

theorem places_completes (h : σ.Placed P) (ht : P t.pos) :
    ∀ f ∈ σ.completes t, P f.note.pos := by
  have hopened : σ.opened.Placed P := placed_opened h
  unfold State.completes
  split
  · next f hf =>
    exact places_completed (place_of_first hopened ht hf)
      fun frame hframe => hopened.frames frame (mem_of_mem_around hframe)
  · simp

/-- Whatever holds of the places of all tokens holds of the place of every form. -/
theorem places_completions {ts : List Token} (h : σ.Placed P) (hts : ∀ t ∈ ts, P t.pos) :
    ∀ f ∈ completions options σ ts, P f.note.pos := by
  induction ts generalizing σ with
  | nil => simp [completions]
  | cons t ts ih =>
    obtain ⟨ht, hts⟩ := List.forall_mem_cons.mp hts
    have hstep : PlacedResult P (σ.step options t) := placed_step h ht
    rw [completions]
    split
    · next σ' hσ' =>
      rw [hσ'] at hstep
      exact List.forall_mem_append.mpr ⟨places_completes h ht, ih hstep hts⟩
    · simp

/-! ## 4. Exact places -/

theorem exact_of_mem_tokens {source : String} :
    ∀ t ∈ (scan source).tokens, t.pos.Exact source :=
  fun t ht => exact_of_mem_signals source (.token t)
    (List.mem_append_left _ (List.mem_map_of_mem ht))

theorem exact_of_error {source : String} {e : SyntaxError} (h : read options source = .error e) :
    e.pos.Exact source := by
  have hend : (scan source).ending.pos.Exact source :=
    exact_of_mem_signals source (.ending (scan source).ending) (by simp [Scan.signals])
  have hrun : PlacedResult (·.Exact source) (run options State.start (scan source).tokens) :=
    placed_run .start exact_of_mem_tokens
  rcases read_eq_error.mp h with herror | ⟨σ, hσ, hfault | ⟨-, hfinish⟩⟩
  · rw [herror] at hrun
    exact hrun
  · obtain ⟨cause, -, rfl⟩ := Option.map_eq_some_iff.mp hfault
    exact hend
  · rw [hσ] at hrun
    exact place_of_finish hrun hend hfinish

/-- Places are exact, whatever comes of a source: those of the answers of its stream, of the forms
that reading it completes, with all identities and with what it is read as among them, and of the
error that it is refused with. -/
theorem exact_places (source : String) :
    (∀ x ∈ (scan source).signals, x.pos.Exact source) ∧
    ∀ options : Options,
      (∀ f ∈ allForms options source, f.note.pos.Exact source) ∧
      (∀ d, read options source = .ok d →
        (allForms options source).map (·.note.id) = List.range d.size ∧
        ∀ f ∈ Form.nodesAll d.roots, f ∈ allForms options source) ∧
      ∀ e, read options source = .error e → e.pos.Exact source := by
  refine ⟨exact_of_mem_signals source, fun options => ⟨?_, ?_, ?_⟩⟩
  · exact places_completions .start exact_of_mem_tokens
  · exact fun d hd => ⟨ids_allForms hd, mem_allForms hd⟩
  · exact fun e he => exact_of_error he

/-- A string over two lines in a form that is dropped, and a bracket behind such a string that is
still open at the end. -/
theorem exact_places_multiline :
    ((allForms { ignoreReaderDiscard := true } "#_[\"é\n\"] λ").map (·.note.pos)
        = [⟨3, 1, 4⟩, ⟨2, 1, 3⟩, ⟨0, 1, 1⟩, ⟨10, 2, 4⟩] ∧
      ∃ d, read { ignoreReaderDiscard := true } "#_[\"é\n\"] λ" = .ok d ∧ d.size = 4 ∧
        (allForms { ignoreReaderDiscard := true } "#_[\"é\n\"] λ").map (·.note.id)
          = List.range d.size ∧
        ∀ f ∈ allForms { ignoreReaderDiscard := true } "#_[\"é\n\"] λ",
          f.note.pos.Exact "#_[\"é\n\"] λ") ∧
      ∃ e, read {} "\"é\n\" [λ" = .error e ∧ e.pos = ⟨6, 2, 3⟩ ∧ e.pos.Exact "\"é\n\" [λ" := by
  obtain ⟨hplaces, hread, -⟩ := (exact_places "#_[\"é\n\"] λ").2 { ignoreReaderDiscard := true }
  obtain ⟨-, -, herror⟩ := (exact_places "\"é\n\" [λ").2 {}
  exact ⟨⟨rfl, _, rfl, rfl, (hread _ rfl).1, hplaces⟩, _, rfl, rfl, herror _ rfl⟩

end CljFormat.Reader
