/-
CljFormat.Proofs.Reader.Readable — the reader yields readable forms.

The invariant is about everything the reader holds between two tokens: the roots, the items of the
open brackets, and what it waits for. A form is readable inside or outside a function literal, and
which of the two depends on the brackets around it, so the items of each open bracket are measured
against the brackets further out (`ReadableFrames`).
-/
import CljFormat.Proofs.Form.Spellings
import CljFormat.Proofs.Reader.Run
import CljFormat.Proofs.Token.StringBody

namespace CljFormat.Reader

variable {options : Options} {σ σ' : State} {t : Token}

/-! ## 1. The invariant -/

/-- Whether one of the open frames is a function literal. -/
def insideFn (frames : List Frame) : Bool :=
  State.insideFnLiteral ⟨frames, .form, [], 0⟩

@[simp] theorem insideFn_nil : insideFn [] = false := rfl

@[simp] theorem insideFn_sigil (s : Sigil) (pos : Position) (outer : List Frame) :
    insideFn (.sigil s pos :: outer) = insideFn outer := rfl

@[simp] theorem insideFn_bracket (b : Bracket) (pos opened : Position)
    (items : List (Form Label)) (outer : List Frame) :
    insideFn (.bracket b pos opened items :: outer) = b.insideOf (insideFn outer) := by
  cases b <;> rfl

/-- A bracket may be opened here, and its namespace is a keyword if it has one. -/
def MayOpen (inside : Bool) : Bracket → Prop
  | .fnLiteral => inside = false
  | .map namespace? => ∀ ns ∈ namespace?, Stands .keyword ns.toList
  | _ => True

/-- Everything in the open frames is readable. -/
def ReadableFrames : List Frame → Prop
  | [] => True
  | .sigil _ _ :: outer => ReadableFrames outer
  | .bracket b _ _ items :: outer =>
    MayOpen (insideFn outer) b ∧ (∀ f ∈ items, f.Readable (b.insideOf (insideFn outer))) ∧
      ReadableFrames outer

/-- Everything a state holds is readable. -/
structure State.Readable (σ : State) : Prop where
  frames : ReadableFrames σ.enclosing
  roots : ∀ f ∈ σ.roots, f.Readable false
  awaited : ∀ b pos, σ.expecting = .opener b pos → MayOpen (insideFn σ.enclosing) b

theorem State.Readable.start : State.start.Readable where
  frames := trivial
  roots := by simp [State.start]
  awaited := by simp [State.start]

/-! ## 2. Steps keep it -/

theorem encloses_of_mayOpen {α : Type} {inside : Bool} {b : Bracket} {items : List (Form α)}
    (hopen : MayOpen inside b)
    (heven : ∀ ns, b = .map ns → items.countP Form.isPaired % 2 = 0) :
    b.Encloses inside items := by
  cases b with
  | fnLiteral => exact hopen
  | map ns => exact ⟨heven ns rfl, hopen⟩
  | _ => trivial

/-- Delivering a readable form keeps everything readable. -/
theorem readable_deliver {roots : List (Form Label)} {frames : List Frame} {f : Form Label}
    (hroots : ∀ r ∈ roots, r.Readable false) (hframes : ReadableFrames frames)
    (hf : f.Readable (insideFn frames)) (next : Nat) :
    (deliver options roots next f frames).Readable := by
  induction frames generalizing f next with
  | nil =>
    refine ⟨trivial, ?_, by simp [deliver]⟩
    intro r hr
    simp only [deliver] at hr
    split at hr
    · rcases List.mem_cons.mp hr with rfl | hr
      · exact hf
      · exact hroots r hr
    · exact hroots r hr
  | cons frame outer ih =>
    cases frame with
    | bracket b pos opened items =>
      obtain ⟨hopen, hitems, houter⟩ := hframes
      rw [insideFn_bracket] at hf
      refine ⟨⟨hopen, ?_, houter⟩, hroots, by simp [deliver]⟩
      intro g hg
      split at hg
      · rcases List.mem_cons.mp hg with rfl | hg
        · exact hf
        · exact hitems g hg
      · exact hitems g hg
    | sigil s pos =>
      rw [insideFn_sigil] at hf
      simp only [deliver]
      split
      · next hsem => exact ih hframes (Form.readable_prefixed.mpr ⟨hsem, hf⟩) (next + 1)
      · exact ⟨hframes, hroots, by simp⟩

/-- A standing string, its quotes taken off and put on again. -/
theorem quotedChars_unquote {text : String} (h : Stands .string text.toList) :
    quotedChars (unquote text) = text.toList := by
  obtain ⟨s, hs⟩ := h.quotes
  simp [quotedChars, unquote, hs]

/-- What a token means is readable if the token stands. -/
theorem readable_of_means {x : Atom} (h : Means t x)
    (ht : t.kind.isWord = true → Stands t.kind t.text.toList) : x.Readable := by
  have hstands : ∀ kind, t.kind = kind → kind.isWord = true → Stands kind t.text.toList := by
    rintro kind rfl hword
    exact ht hword
  cases h with
  | symbol hkind =>
    simp only [atomOfSymbol]
    split
    · trivial
    · split
      · trivial
      · split
        · trivial
        · next hnil htrue hfalse =>
          exact ⟨hstands _ hkind rfl, by simp [atomOfSymbol, hnil, htrue, hfalse]⟩
  | charLiteral value hkind hvalue => exact ⟨hstands _ hkind rfl, hvalue⟩
  | comment hkind => exact hstands _ hkind rfl
  | keyword hkind => exact hstands _ hkind rfl
  | newline _ => trivial
  | number hkind => exact hstands _ hkind rfl
  | string hkind =>
    have hstring := hstands _ hkind rfl
    simpa only [Atom.Readable, quotedChars_unquote hstring] using hstring
  | regex hkind =>
    have hstring := hstands _ hkind rfl
    simpa only [Atom.Readable, quotedChars_unquote hstring] using hstring
  | varQuote hkind => exact hstands _ hkind rfl
  | tag hkind => exact hstands _ hkind rfl

/-- A step keeps everything readable. -/
theorem readable_steps (hσ : σ.Readable)
    (ht : t.kind.isWord = true → Stands t.kind t.text.toList) (h : Steps options σ t σ') :
    σ'.Readable := by
  cases h with
  | atom pos x hx =>
    have hreadable : (Form.atom (Label.mk σ.next pos) x).Readable (insideFn σ.enclosing) :=
      readable_of_means hx ht
    exact readable_deliver hσ.roots hσ.frames hreadable _
  | sigil s pos _ => exact ⟨hσ.frames, hσ.roots, by simp [State.push]⟩
  | bracket b pos opened _ hb =>
    have hopen : MayOpen (insideFn σ.enclosing) b := by
      rcases hb with hexp | hmem
      · exact hσ.awaited b pos hexp
      · simp only [List.mem_cons, List.not_mem_nil, or_false] at hmem
        rcases hmem with rfl | rfl | rfl
        · trivial
        · trivial
        · intro ns hns
          simp at hns
    exact ⟨⟨hopen, by simp, hσ.frames⟩, hσ.roots, by simp [State.push]⟩
  | await e he =>
    refine ⟨hσ.frames, hσ.roots, ?_⟩
    intro b pos hexp
    simp only [State.expect] at hexp ⊢
    cases he with
    | fnLiteral pos _ hinside => cases hexp; exact hinside
    | map pos hkind =>
      cases hexp
      intro ns hns
      simp only [Option.mem_def, Option.some.injEq] at hns
      have hstands := ht (by rw [hkind]; rfl)
      rw [hkind] at hstands
      exact hns ▸ hstands
    | set pos _ => cases hexp; trivial
    | readerCond pos _ => cases hexp; trivial
    | readerCondSplice pos _ => cases hexp; trivial
    | _ => simp at hexp
  | close b pos opened items outer _ henc heven =>
    obtain ⟨hopen, hitems, houter⟩ : ReadableFrames (.bracket b pos opened items :: outer) :=
      henc ▸ hσ.frames
    refine readable_deliver hσ.roots houter (Form.readable_seq.mpr ⟨?_, ?_⟩) _
    · exact encloses_of_mayOpen hopen fun ns hns => by simpa using heven ns hns
    · exact fun f hf => hitems f (List.mem_reverse.mp hf)

theorem readable_step (hσ : σ.Readable)
    (ht : t.kind.isWord = true → Stands t.kind t.text.toList)
    (h : σ.step options t = .ok σ') : σ'.Readable := by
  rcases step_cases h with hstep | ⟨pos, -, -, hstep⟩
  · exact readable_steps hσ ht hstep
  · have hpush : (σ.push (.sigil .unquote pos)).Readable :=
      ⟨hσ.frames, hσ.roots, by simp [State.push]⟩
    exact readable_steps hpush ht hstep

/-- The reader yields readable forms. -/
theorem readable_of_read {source : String} {d : Document} (h : read options source = .ok d) :
    ∀ f ∈ d.roots, f.Readable false := by
  obtain ⟨σ, hrun, -, -, -, rfl⟩ := read_eq_ok.mp h
  have hσ : σ.Readable :=
    run_invariant (fun _ _ _ hσ ht hstep => readable_step hσ ht hstep)
      (fun t ht => stands_of_mem_scan ht) .start hrun
  intro f hf
  exact hσ.roots f (List.mem_reverse.mp hf)

end CljFormat.Reader
