/-
CljFormat.Proofs.Reader.Built — how the forms of a source are built.

The reader builds a form out of forms that are complete. What it puts under a sigil is code, what it
puts between brackets was kept by the options when it was delivered, and each part has taken its
identity before the form takes one. `Built` says this of a form and of everything below it.

The invariant is about the roots and the items of the open brackets alike: each of them is built,
was kept, and has an identity that was given out (`Held`). The forms of a source are built because
of it (`built_of_read`).
-/
import CljFormat.Proofs.Form.Bare
import CljFormat.Proofs.Reader.Run

namespace CljFormat.Reader

variable {options : Options} {σ σ' : State} {t : Token} {f g : Form Label} {n : Nat}

/-! ## 1. Forms that are built -/

/-- A form that the reader builds. -/
inductive Built (options : Options) : Form Label → Prop
  | atom (l : Label) (x : Atom) : Built options (.atom l x)
  | prefixed {l : Label} (s : Sigil) {body : Form Label} : body.isSemantic = true →
      body.note.id < l.id → Built options body → Built options (.prefixed l s body)
  | seq {l : Label} (b : Bracket) {items : List (Form Label)} :
      (∀ f ∈ items, options.keeps f = true) → (∀ f ∈ items, f.note.id < l.id) →
      (∀ f ∈ items, Built options f) → Built options (.seq l b items)

/-- What stands below a form that is built is built. -/
theorem Built.of_mem_nodes (h : Built options f) (hg : g ∈ f.nodes) : Built options g := by
  induction h with
  | atom l x => exact List.mem_singleton.mp hg ▸ .atom l x
  | prefixed s hsem hid hbody ih =>
    rw [Form.nodes_prefixed] at hg
    rcases List.mem_cons.mp hg with rfl | hg
    · exact .prefixed s hsem hid hbody
    · exact ih hg
  | seq b hkept hid hitems ih =>
    rw [Form.nodes_seq] at hg
    rcases List.mem_cons.mp hg with rfl | hg
    · exact .seq b hkept hid hitems
    · obtain ⟨f, hf, hg⟩ := List.mem_flatMap.mp hg
      exact ih f hf hg

/-- What stands below a form that is built is the form itself, the part of a sigil, or an item that
was kept. -/
theorem Built.eq_or_under_sigil (h : Built options f) (hg : g ∈ f.nodes) :
    g = f ∨ (∃ l s, Form.prefixed l s g ∈ f.nodes) ∨ options.keeps g = true := by
  rcases Form.eq_or_mem_parts hg with rfl | ⟨k, hk, hgk⟩
  · exact .inl rfl
  · right
    cases h.of_mem_nodes hk with
    | atom l x => simp [Form.parts, Form.shape, Shape.parts] at hgk
    | prefixed s _ _ _ => exact .inl ⟨_, s, List.mem_singleton.mp hgk ▸ hk⟩
    | seq b hkept _ _ => exact .inr (hkept g hgk)

/-- A form that was delivered and kept when `n` was the next identity. -/
structure Held (options : Options) (n : Nat) (f : Form Label) : Prop where
  built : Built options f
  kept : options.keeps f = true
  earlier : f.note.id < n

theorem Held.mono {m : Nat} (h : Held options n f) (hle : n ≤ m) : Held options m f :=
  ⟨h.built, h.kept, Nat.lt_of_lt_of_le h.earlier hle⟩

/-! ## 2. The invariant -/

/-- The forms delivered to a frame. -/
def Frame.items : Frame → List (Form Label)
  | .bracket _ _ _ items => items
  | .sigil _ _ => []

/-- Everything a state holds was delivered and kept. -/
structure State.Built (options : Options) (σ : State) : Prop where
  roots : ∀ f ∈ σ.roots, Held options σ.next f
  items : ∀ frame ∈ σ.enclosing, ∀ f ∈ frame.items, Held options σ.next f

theorem State.Built.start : State.start.Built options :=
  ⟨by simp [State.start], by simp [State.start]⟩

/-- A form that is delivered is held with those before it, or dropped. -/
theorem held_kept {fs : List (Form Label)} (hf : Built options f) (hid : f.note.id < n)
    (hfs : ∀ g ∈ fs, Held options n g) :
    ∀ g ∈ if options.keeps f then f :: fs else fs, Held options n g := by
  split
  · next hkept => exact List.forall_mem_cons.mpr ⟨⟨hf, hkept, hid⟩, hfs⟩
  · exact hfs

theorem built_deliver {roots : List (Form Label)} {frames : List Frame}
    (hroots : ∀ r ∈ roots, Held options n r)
    (hframes : ∀ frame ∈ frames, ∀ g ∈ frame.items, Held options n g) (hf : Built options f)
    (hid : f.note.id < n) : (deliver options roots n f frames).Built options := by
  induction frames generalizing f n with
  | nil => exact ⟨held_kept hf hid hroots, by simp [deliver]⟩
  | cons frame outer ih =>
    rw [List.forall_mem_cons] at hframes
    obtain ⟨hitems, houter⟩ := hframes
    cases frame with
    | bracket b pos opened items =>
      exact ⟨hroots, List.forall_mem_cons.mpr ⟨held_kept hf hid hitems, houter⟩⟩
    | sigil s pos =>
      simp only [deliver]
      split
      · next hsem =>
        have hlater : ∀ {g}, Held options n g → Held options (n + 1) g := fun h => h.mono n.le_succ
        exact ih (fun r hr => hlater (hroots r hr))
          (fun frame hframe g hg => hlater (houter frame hframe g hg)) (.prefixed s hsem hid hf)
          n.lt_succ_self
      · exact ⟨hroots, List.forall_mem_cons.mpr ⟨hitems, houter⟩⟩

/-! ## 3. Steps keep it -/

theorem built_steps (hσ : σ.Built options) (h : Steps options σ t σ') : σ'.Built options := by
  have hlater : ∀ {g}, Held options σ.next g → Held options (σ.next + 1) g :=
    fun h => h.mono (Nat.le_succ _)
  cases h with
  | atom pos x _ =>
    exact built_deliver (fun r hr => hlater (hσ.roots r hr))
      (fun frame hframe g hg => hlater (hσ.items frame hframe g hg)) (.atom _ x)
      (Nat.lt_succ_self _)
  | sigil s pos _ => exact ⟨hσ.roots, List.forall_mem_cons.mpr ⟨by simp [Frame.items], hσ.items⟩⟩
  | bracket b pos opened _ _ =>
    exact ⟨hσ.roots, List.forall_mem_cons.mpr ⟨by simp [Frame.items], hσ.items⟩⟩
  | await e _ => exact ⟨hσ.roots, hσ.items⟩
  | close b pos opened items outer _ henc _ =>
    have hframes := hσ.items
    rw [henc, List.forall_mem_cons] at hframes
    obtain ⟨hitems, houter⟩ := hframes
    have hheld : ∀ f ∈ items.reverse, Held options σ.next f :=
      fun f hf => hitems f (List.mem_reverse.mp hf)
    have hseq : Built options (.seq ⟨σ.next, pos⟩ b items.reverse) :=
      .seq b (fun f hf => (hheld f hf).kept) (fun f hf => (hheld f hf).earlier)
        fun f hf => (hheld f hf).built
    exact built_deliver (fun r hr => hlater (hσ.roots r hr))
      (fun frame hframe g hg => hlater (houter frame hframe g hg)) hseq (Nat.lt_succ_self _)

theorem built_step (hσ : σ.Built options) (h : σ.step options t = .ok σ') : σ'.Built options := by
  rcases step_cases h with hstep | ⟨pos, -, -, hstep⟩
  · exact built_steps hσ hstep
  · have hpush : (σ.push (.sigil .unquote pos)).Built options :=
      ⟨hσ.roots, List.forall_mem_cons.mpr ⟨by simp [Frame.items], hσ.items⟩⟩
    exact built_steps hpush hstep

/-- The roots of a source are built and were kept. -/
theorem built_of_read {source : String} {d : Document} (h : read options source = .ok d) :
    ∀ f ∈ d.roots, Built options f ∧ options.keeps f = true := by
  obtain ⟨σ, hrun, -, -, -, rfl⟩ := read_eq_ok.mp h
  have hσ : σ.Built options :=
    run_invariant (Q := fun _ => True) (fun _ _ _ hσ _ hstep => built_step hσ hstep)
      (fun _ _ => trivial) .start hrun
  intro f hf
  have hheld := hσ.roots f (List.mem_reverse.mp hf)
  exact ⟨hheld.built, hheld.kept⟩

end CljFormat.Reader
