/-
CljFormat.Proofs.Reader.Numbering — the reader gives out every identity once.

The invariant counts: between two tokens, each identity below the next one is the identity of at
most one form that the reader holds, and no other identity is used (`State.Numbered`). A completed
form takes the next identity, and a form that is dropped takes its identities with it.
-/
import CljFormat.Proofs.Form.Bare
import CljFormat.Proofs.Reader.Run

namespace CljFormat.Reader

variable {options : Options} {σ σ' : State} {t : Token}

/-! ## 1. How often an identity is used -/

/-- How many of some forms, and of the forms below them, have the identity `i`. -/
def uses (i : Nat) (fs : List (Form Label)) : Nat :=
  (Form.nodesAll fs).countP fun f => f.note.id == i

theorem uses_cons (i : Nat) (f : Form Label) (fs : List (Form Label)) :
    uses i (f :: fs) = uses i [f] + uses i fs := by
  simp [uses]

@[simp] theorem uses_nil (i : Nat) : uses i [] = 0 := rfl

@[simp] theorem uses_reverse (i : Nat) (fs : List (Form Label)) :
    uses i fs.reverse = uses i fs := by
  induction fs with
  | nil => rfl
  | cons f fs ih =>
    have happend : ∀ gs hs, uses i (gs ++ hs) = uses i gs + uses i hs := by simp [uses]
    rw [List.reverse_cons, happend, ih, uses_cons i f fs]
    omega

theorem uses_atom (i id : Nat) (pos : Position) (x : Atom) :
    uses i [.atom ⟨id, pos⟩ x] = if id = i then 1 else 0 := by
  simp [uses, Form.note, List.countP_cons]

theorem uses_prefixed (i id : Nat) (pos : Position) (s : Sigil) (body : Form Label) :
    uses i [.prefixed ⟨id, pos⟩ s body] = (if id = i then 1 else 0) + uses i [body] := by
  simp [uses, Form.note, List.countP_cons, Nat.add_comm]

theorem uses_seq (i id : Nat) (pos : Position) (b : Bracket) (items : List (Form Label)) :
    uses i [.seq ⟨id, pos⟩ b items] = (if id = i then 1 else 0) + uses i items := by
  simp [uses, Form.note, List.countP_cons, Nat.add_comm]

/-- How many forms in the open frames have the identity `i`. -/
def framesUse (i : Nat) : List Frame → Nat
  | [] => 0
  | .sigil _ _ :: outer => framesUse i outer
  | .bracket _ _ _ items :: outer => uses i items + framesUse i outer

/-- How often the identity `i` may be used when `next` is the next one. -/
def allowance (next i : Nat) : Nat :=
  if i < next then 1 else 0

theorem allowance_le (next i : Nat) : allowance next i ≤ 1 := by
  unfold allowance
  split <;> omega

/-- The identity that is given out may be used once more. -/
theorem allowance_succ (next i : Nat) :
    allowance (next + 1) i = allowance next i + if next = i then 1 else 0 := by
  unfold allowance
  split <;> split <;> split <;> omega

/-- No identity is used twice, and none that is not given out yet. -/
def State.Numbered (σ : State) : Prop :=
  ∀ i, uses i σ.roots + framesUse i σ.enclosing ≤ allowance σ.next i

theorem State.Numbered.start : State.start.Numbered := by
  intro i
  exact Nat.zero_le _

/-! ## 2. Steps keep it -/

/-- Delivering a form whose identities are used nowhere else keeps all identities apart. -/
theorem numbered_deliver {roots : List (Form Label)} {frames : List Frame} {next : Nat}
    {f : Form Label}
    (h : ∀ i, uses i roots + framesUse i frames + uses i [f] ≤ allowance next i) :
    (deliver options roots next f frames).Numbered := by
  induction frames generalizing next f with
  | nil =>
    intro i
    have hi := h i
    simp only [framesUse] at hi
    simp only [deliver, framesUse]
    by_cases hkeep : options.keeps f = true
    · rw [if_pos hkeep, uses_cons]
      omega
    · rw [if_neg hkeep]
      omega
  | cons frame outer ih =>
    cases frame with
    | bracket b pos opened items =>
      intro i
      have hi := h i
      simp only [framesUse] at hi
      simp only [deliver, framesUse]
      by_cases hkeep : options.keeps f = true
      · rw [if_pos hkeep, uses_cons]
        omega
      · rw [if_neg hkeep]
        omega
    | sigil s pos =>
      simp only [deliver]
      split
      · refine ih fun i => ?_
        have hi := h i
        simp only [framesUse] at hi
        rw [uses_prefixed]
        rw [allowance_succ]
        omega
      · intro i
        have hi := h i
        simp only [framesUse] at hi ⊢
        omega

theorem numbered_steps (hσ : σ.Numbered) (h : Steps options σ t σ') : σ'.Numbered := by
  cases h with
  | atom pos x _ =>
    refine numbered_deliver fun i => ?_
    have hi := hσ i
    rw [uses_atom]
    rw [allowance_succ]
    omega
  | sigil s pos _ => exact hσ
  | bracket b pos opened _ _ =>
    intro i
    have hi := hσ i
    simp only [State.push, framesUse, uses_nil, Nat.zero_add]
    exact hi
  | await e _ => exact hσ
  | close b pos opened items outer _ henc _ =>
    refine numbered_deliver fun i => ?_
    have hi := hσ i
    rw [henc] at hi
    simp only [framesUse] at hi
    rw [uses_seq, uses_reverse]
    rw [allowance_succ]
    omega

theorem numbered_step (hσ : σ.Numbered) (h : σ.step options t = .ok σ') : σ'.Numbered := by
  rcases step_cases h with hstep | ⟨pos, -, -, hstep⟩
  · exact numbered_steps hσ hstep
  · have hpush : (σ.push (.sigil .unquote pos)).Numbered := hσ
    exact numbered_steps hpush hstep

theorem numbered_of_run {ts : List Token} (h : run options State.start ts = .ok σ) : σ.Numbered :=
  run_invariant (Q := fun _ => True) (fun _ _ _ hσ _ hstep => numbered_step hσ hstep)
    (fun _ _ => trivial) .start h

/-- The forms of a source have different identities. -/
theorem nodup_of_read {source : String} {d : Document} (h : read options source = .ok d) :
    ((Form.nodesAll d.roots).map fun f => f.note.id).Nodup := by
  obtain ⟨σ, hrun, -, -, -, rfl⟩ := read_eq_ok.mp h
  rw [List.nodup_iff_count]
  intro i
  have hi : uses i σ.roots.reverse ≤ 1 := by
    have hle := numbered_of_run hrun i
    have hone := allowance_le σ.next i
    rw [uses_reverse]
    omega
  rw [List.count_eq_countP, List.countP_map]
  exact hi

/-- The forms of a source have identities that were given out. -/
theorem lt_size_of_read {source : String} {d : Document} (h : read options source = .ok d) :
    ∀ i ∈ (Form.nodesAll d.roots).map fun f => f.note.id, i < d.size := by
  obtain ⟨σ, hrun, -, -, -, rfl⟩ := read_eq_ok.mp h
  intro i hi
  refine Nat.lt_of_not_le fun hlarge => ?_
  have hunused : uses i σ.roots.reverse = 0 := by
    have hle := numbered_of_run hrun i
    rw [allowance, if_neg (Nat.not_lt.mpr hlarge)] at hle
    rw [uses_reverse]
    omega
  obtain ⟨f, hf, rfl⟩ := List.mem_map.mp hi
  exact absurd (beq_self_eq_true _) (List.countP_eq_zero.mp hunused f hf)

end CljFormat.Reader
