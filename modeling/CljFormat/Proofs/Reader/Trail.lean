/-
CljFormat.Proofs.Reader.Trail — forms stand in the order of the source.

The reader completes a form only at its last token, but knows its place from the first one on. So
the places in a state make up a trail that runs through the source: the roots with all that is below
them, then the open brackets and sigils from the outermost inwards, each in front of the forms that
it holds, and last the tokens in front of the one that is waited for (`State.trail`). A step appends
the place of its token at most (`within_step`): delivering a form drops it or leaves the trail as it
is, since a bracket or sigil that becomes a form keeps its place. A run thus keeps a part of the
places of its tokens, which ascend.
-/
import CljFormat.Proofs.Reader.Places
import CljFormat.Proofs.Token.Lossless

namespace CljFormat.Reader

variable {options : Options} {σ σ' : State} {t : Token} {ps : List Position}

/-! ## 1. Trails -/

/-- The places of neighbouring forms and of the forms below them, in document order. -/
def placesOf (fs : List (Form Label)) : List Position :=
  (Form.nodesAll fs).map (·.note.pos)

@[simp] theorem placesOf_append (fs gs : List (Form Label)) :
    placesOf (fs ++ gs) = placesOf fs ++ placesOf gs := by
  simp [placesOf]

@[simp] theorem placesOf_atom (l : Label) (x : Atom) : placesOf [.atom l x] = [l.pos] := rfl

@[simp] theorem placesOf_prefixed (l : Label) (s : Sigil) (body : Form Label) :
    placesOf [.prefixed l s body] = l.pos :: placesOf [body] := by
  simp [placesOf, Form.note]

@[simp] theorem placesOf_seq (l : Label) (b : Bracket) (items : List (Form Label)) :
    placesOf [.seq l b items] = l.pos :: placesOf items := by
  simp [placesOf, Form.note]

/-- The place where a frame starts, and the places of what it holds. -/
def Frame.trail : Frame → List Position
  | .bracket _ pos _ items => pos :: placesOf items.reverse
  | .sigil _ pos => [pos]

/-- The places of complete forms and open frames. -/
def laid (roots : List (Form Label)) (frames : List Frame) : List Position :=
  placesOf roots.reverse ++ frames.reverse.flatMap Frame.trail

theorem laid_cons (roots : List (Form Label)) (frame : Frame) (frames : List Frame) :
    laid roots (frame :: frames) = laid roots frames ++ frame.trail := by
  simp [laid]

/-- The places that a state holds, in the order of the source. -/
def State.trail (σ : State) : List Position :=
  laid σ.roots σ.enclosing ++ σ.expecting.place?.toList

/-- What holds of the state that a step leads to, if its trail is a part of `ps`. -/
def Within (ps : List Position) : Except SyntaxError State → Prop
  | .ok σ => σ.trail.Sublist ps
  | .error _ => True

theorem trail_push (frame : Frame) :
    (σ.push frame).trail = laid σ.roots σ.enclosing ++ frame.trail := by
  simp [State.trail, State.push, laid_cons, Expecting.place?]

theorem trail_expect (e : Expecting) :
    (σ.expect e).trail = laid σ.roots σ.enclosing ++ e.place?.toList := rfl

/-! ## 2. Delivering a form -/

/-- A form that is delivered to a sequence is dropped, or adds its places. -/
theorem placesOf_kept (f : Form Label) (fs : List (Form Label)) :
    (placesOf (if options.keeps f then f :: fs else fs).reverse).Sublist
      (placesOf fs.reverse ++ placesOf [f]) := by
  split
  · rw [List.reverse_cons, placesOf_append]
  · exact List.sublist_append_left _ _

theorem trail_deliver {roots : List (Form Label)} {frames : List Frame} {n : Nat}
    {f : Form Label} :
    (deliver options roots n f frames).trail.Sublist (laid roots frames ++ placesOf [f]) := by
  induction frames generalizing f n with
  | nil => simpa [deliver, State.trail, laid, Expecting.place?] using placesOf_kept f roots
  | cons frame outer ih =>
    cases frame with
    | bracket b pos opened items =>
      simp only [deliver, State.trail, laid_cons, Frame.trail, Expecting.place?,
        Option.toList_none, List.append_nil, List.append_assoc, List.cons_append]
      exact ((placesOf_kept f items).cons_cons pos).append_left _
    | sigil s pos =>
      simp only [deliver]
      split
      · have houter := ih (n := n + 1) (f := .prefixed ⟨n, pos⟩ s f)
        rw [placesOf_prefixed] at houter
        simpa [laid_cons, Frame.trail] using houter
      · simp [State.trail, Expecting.place?]

theorem trail_atom (pos : Position) (x : Atom) :
    (σ.atom options pos x).trail.Sublist (laid σ.roots σ.enclosing ++ [pos]) := by
  rw [← placesOf_atom ⟨σ.next, pos⟩ x]
  exact trail_deliver

theorem within_close (d : Delimiter) :
    Within (laid σ.roots σ.enclosing) (σ.close options d t) := by
  cases hclose : σ.close options d t with
  | error e => trivial
  | ok σ' =>
    obtain ⟨b, pos, opened, items, outer, henc, -, -, rfl⟩ := close_cases hclose
    rw [henc, laid_cons, Frame.trail, ← placesOf_seq ⟨σ.next, pos⟩ b]
    exact trail_deliver

/-! ## 3. Steps -/

theorem within_dispatch (pos : Position) (d : Dispatch) :
    Within (laid σ.roots σ.enclosing ++ [pos]) (σ.dispatch pos d) := by
  have hexpect : ∀ {e : Expecting}, e.place? = some pos →
      (σ.expect e).trail.Sublist (laid σ.roots σ.enclosing ++ [pos]) := by
    intro e he
    rw [trail_expect, he]
    exact List.Sublist.refl _
  have hpush : ∀ s, (σ.push (.sigil s pos)).trail.Sublist (laid σ.roots σ.enclosing ++ [pos]) :=
    fun s => by rw [trail_push, Frame.trail]
  cases d with
  | fnLiteral =>
    simp only [State.dispatch]
    split
    · trivial
    · exact hexpect rfl
  | discard => exact hpush .readerDiscard
  | eval => exact hpush .readerEval
  | metadata => exact hpush .metadata
  | _ => exact hexpect rfl

theorem within_form : Within (laid σ.roots σ.enclosing ++ [t.pos]) (σ.form options t) := by
  have hpush : ∀ frame : Frame, frame.trail = [t.pos] →
      (σ.push frame).trail.Sublist (laid σ.roots σ.enclosing ++ [t.pos]) :=
    fun frame hframe => by rw [trail_push, hframe]
  unfold State.form
  split
  case h_2 =>
    split
    · exact trail_atom _ _
    · trivial
  case h_8 | h_9 | h_10 | h_12 | h_13 | h_14 | h_15 => exact hpush _ rfl
  case h_11 d _ =>
    have hclose : Within (laid σ.roots σ.enclosing) (σ.close options d t) := within_close d
    cases hresult : σ.close options d t with
    | error e => trivial
    | ok σ' =>
      rw [hresult] at hclose
      exact List.Sublist.trans hclose (List.sublist_append_left _ _)
  case h_16 | h_17 => exact List.Sublist.refl _
  case h_18 d _ => exact within_dispatch t.pos d
  all_goals exact trail_atom _ _

theorem within_opener (b : Bracket) (pos : Position) :
    Within (laid σ.roots σ.enclosing ++ [pos]) (σ.opener b pos t) := by
  unfold State.opener
  split
  · rw [Within, trail_push, Frame.trail]
    exact List.Sublist.refl _
  · split <;> trivial

/-- A step appends the place of its token to the trail, or less. -/
theorem within_step : Within (σ.trail ++ [t.pos]) (σ.step options t) := by
  have hgrow : ∀ (pos : Position) {r : Except SyntaxError State}, σ.expecting.place? = some pos →
      Within (laid σ.roots σ.enclosing ++ [pos]) r → Within (σ.trail ++ [t.pos]) r := by
    intro pos r hpos hr
    cases r with
    | error e => trivial
    | ok σ' =>
      rw [State.trail, hpos]
      exact List.Sublist.trans hr (List.sublist_append_left _ _)
  unfold State.step
  split
  case h_1 hexp =>
    rw [State.trail, hexp]
    simpa [Expecting.place?] using within_form
  case h_2 b pos hexp => exact hgrow pos (by rw [hexp]; rfl) (within_opener b pos)
  case h_6 pos hexp =>
    split
    · exact hgrow pos (by rw [hexp]; rfl) (List.Sublist.refl _)
    · trivial
  case h_7 pos hexp =>
    split
    · exact hgrow pos (by rw [hexp]; rfl) (by rw [Within, trail_push, Frame.trail])
    · -- The sigil of the `~` is open by the time the token is taken.
      rw [State.trail, hexp]
      have hform : Within (laid σ.roots (.sigil .unquote pos :: σ.enclosing) ++ [t.pos])
          ((σ.push (.sigil .unquote pos)).form options t) := within_form
      rwa [laid_cons] at hform
  all_goals
    next pos hexp =>
      split
      · exact hgrow pos (by rw [hexp]; rfl) (trail_atom pos _)
      · trivial

/-! ## 4. Runs -/

/-- A run appends the places of its tokens, or a part of them. -/
theorem trail_run {ts : List Token} (h : run options σ ts = .ok σ') :
    σ'.trail.Sublist (σ.trail ++ ts.map (·.pos)) := by
  induction ts generalizing σ with
  | nil =>
    obtain rfl : σ = σ' := by simpa using h
    simp
  | cons t ts ih =>
    obtain ⟨τ, hfirst, hrest⟩ := step_of_run h
    have hstep : Within (σ.trail ++ [t.pos]) (σ.step options t) := within_step
    rw [hfirst] at hstep
    have hlater := (ih hrest).trans (List.Sublist.append_right hstep (ts.map (·.pos)))
    rwa [List.append_assoc] at hlater

/-- The places of all forms of a source, in document order, are among those of its tokens. -/
theorem placesOf_of_read {source : String} {d : Document} (h : read options source = .ok d) :
    (placesOf d.roots).Sublist ((scan source).tokens.map (·.pos)) := by
  obtain ⟨σ, hrun, -, hexp, henc, rfl⟩ := read_eq_ok.mp h
  have htrail : σ.trail.Sublist (State.start.trail ++ (scan source).tokens.map (·.pos)) :=
    trail_run hrun
  simpa [State.trail, State.start, laid, hexp, henc, Expecting.place?, placesOf] using htrail

/-- The tokens of a source ascend. -/
theorem ascending_tokens (source : String) :
    ((scan source).tokens.map (·.pos)).Pairwise (·.offset < ·.offset) := by
  have horder := (lossless_scan source).order
  rw [Scan.signals] at horder
  have htokens := (List.pairwise_append.mp horder).1
  rw [List.pairwise_map] at htokens ⊢
  exact htokens

/-- So do its forms. -/
theorem ascending_of_read {source : String} {d : Document} (h : read options source = .ok d) :
    (placesOf d.roots).Pairwise (·.offset < ·.offset) :=
  (ascending_tokens source).sublist (placesOf_of_read h)

end CljFormat.Reader
