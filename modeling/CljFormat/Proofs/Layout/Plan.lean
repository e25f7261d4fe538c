/-
CljFormat.Proofs.Layout.Plan — what planning a source leaves alone.

Planning replaces annotations and nothing else (`bare_planAll`). It marks an atom as a docstring
exactly when the source marks its identity (`atom_of_mem_plan`), and lays a sequence out by what is
pending in front of it (`seq_of_mem_plan`).
-/
import CljFormat.Layout.Plan
import CljFormat.Proofs.Form.Echo

namespace CljFormat.Layout

variable {ctx : Context}

/-! ## Equations -/

theorem plan_prefixed (p : Pending) (l : Label) (s : Sigil) (body : Form Label) :
    plan ctx p (.prefixed l s body) = (.prefixed {} s (plan ctx p body).1, (plan ctx p body).2) :=
  rfl

theorem plan_seq (p : Pending) (l : Label) (b : Bracket) (items : List (Form Label)) :
    plan ctx p (.seq l b items)
      = (let laid := ofSeq ctx p l.id b items
        let planned := planAll ctx laid.2 items
        (.seq { layout := laid.1 } b planned.1, planned.2)) := rfl

theorem planAll_cons (p : Pending) (f : Form Label) (fs : List (Form Label)) :
    planAll ctx p (f :: fs)
      = ((plan ctx p f).1 :: (planAll ctx (plan ctx p f).2 fs).1,
        (planAll ctx (plan ctx p f).2 fs).2) := rfl

theorem planAll_nil (p : Pending) : planAll ctx p [] = ([], p) := rfl

theorem planAll_append (p : Pending) (fs gs : List (Form Label)) :
    planAll ctx p (fs ++ gs)
      = ((planAll ctx p fs).1 ++ (planAll ctx (planAll ctx p fs).2 gs).1,
        (planAll ctx (planAll ctx p fs).2 gs).2) := by
  induction fs generalizing p with
  | nil => rfl
  | cons f fs ih =>
    rw [List.cons_append, planAll_cons, planAll_cons, ih]
    rfl

/-! ## What a plan says of the source -/

mutual

/-- Planning changes annotations only. -/
theorem bare_plan (p : Pending) : ∀ f : Form Label, (plan ctx p f).1.bare = f.bare
  | .atom l x => rfl
  | .prefixed l s body => by
    rw [plan_prefixed, Form.bare_prefixed, Form.bare_prefixed, bare_plan p body]
  | .seq l b items => by
    rw [plan_seq, Form.bare_seq, Form.bare_seq, bare_planAll _ items]

theorem bare_planAll (p : Pending) :
    ∀ fs : List (Form Label), (planAll ctx p fs).1.map Form.bare = fs.map Form.bare
  | [] => rfl
  | f :: fs => by
    rw [planAll_cons, List.map_cons, List.map_cons, bare_plan p f, bare_planAll _ fs]

end

/-- Line breaks are missing in a plan where they are missing in the source. -/
theorem needsBreak_planAll {closed : Bool} (p q : Pending) (f : Form Label)
    (fs : List (Form Label)) :
    needsBreak closed (plan ctx p f).1.isComment (planAll ctx q fs).1
      = needsBreak closed f.isComment fs := by
  have hcomment : (plan ctx p f).1.isComment = f.isComment := by
    rw [← Form.isComment_bare, bare_plan, Form.isComment_bare]
  rw [hcomment, ← needsBreak_bare, bare_planAll, needsBreak_bare]

mutual

/-- An atom of a plan is an atom of the source, and a docstring if its identity is marked. -/
theorem atom_of_mem_plan {hint : Hint} {x : Atom} (p : Pending) (f : Form Label)
    (h : .atom hint x ∈ (plan ctx p f).1.nodes) :
    ∃ l, .atom l x ∈ f.nodes ∧ hint.docstring = ctx.marks.docstrings.contains l.id :=
  match f with
  | .atom l y => by
    obtain ⟨rfl, rfl⟩ : hint = _ ∧ x = y := by simpa [plan] using h
    exact ⟨l, Form.self_mem_nodes _, rfl⟩
  | .prefixed l s body => by
    rw [plan_prefixed, Form.nodes_prefixed] at h
    obtain ⟨l', hmem, hmarked⟩ := atom_of_mem_plan p body (by simpa using h)
    exact ⟨l', Form.mem_nodes_of_body hmem, hmarked⟩
  | .seq l b items => by
    rw [plan_seq, Form.nodes_seq] at h
    obtain ⟨l', hmem, hmarked⟩ := atom_of_mem_planAll _ items (by simpa using h)
    rw [Form.nodes_seq]
    exact ⟨l', List.mem_cons_of_mem _ hmem, hmarked⟩

theorem atom_of_mem_planAll {hint : Hint} {x : Atom} (p : Pending) (fs : List (Form Label))
    (h : .atom hint x ∈ (planAll ctx p fs).1.flatMap Form.nodes) :
    ∃ l, .atom l x ∈ fs.flatMap Form.nodes ∧
      hint.docstring = ctx.marks.docstrings.contains l.id :=
  match fs with
  | [] => by simp [planAll_nil] at h
  | f :: fs => by
    rw [planAll_cons, List.flatMap_cons, List.mem_append] at h
    simp only [List.flatMap_cons, List.mem_append]
    rcases h with h | h
    · obtain ⟨l, hmem, hmarked⟩ := atom_of_mem_plan p f h
      exact ⟨l, .inl hmem, hmarked⟩
    · obtain ⟨l, hmem, hmarked⟩ := atom_of_mem_planAll _ fs h
      exact ⟨l, .inr hmem, hmarked⟩

end

mutual

/-- A sequence of a plan is a sequence of the source, laid out by what was pending there. -/
theorem seq_of_mem_plan {hint : Hint} {b : Bracket} {items : List (Form Hint)} (p : Pending)
    (f : Form Label) (h : .seq hint b items ∈ (plan ctx p f).1.nodes) :
    ∃ q l labelled, .seq l b labelled ∈ f.nodes ∧ items.map Form.bare = labelled.map Form.bare ∧
      hint.layout = (ofSeq ctx q l.id b labelled).1 :=
  match f with
  | .atom l y => by simp [plan] at h
  | .prefixed l s body => by
    rw [plan_prefixed, Form.nodes_prefixed] at h
    obtain ⟨q, l', labelled, hmem, hlayout⟩ := seq_of_mem_plan p body (by simpa using h)
    exact ⟨q, l', labelled, Form.mem_nodes_of_body hmem, hlayout⟩
  | .seq l b' labelled => by
    rw [plan_seq, Form.nodes_seq, List.mem_cons] at h
    rcases h with h | h
    · obtain ⟨rfl, rfl, rfl⟩ : hint = _ ∧ b = b' ∧ items = _ := by simpa using h
      exact ⟨p, l, labelled, Form.self_mem_nodes _, bare_planAll _ labelled, rfl⟩
    · obtain ⟨q, l', labelled', hmem, hlayout⟩ := seq_of_mem_planAll _ labelled h
      rw [Form.nodes_seq]
      exact ⟨q, l', labelled', List.mem_cons_of_mem _ hmem, hlayout⟩

theorem seq_of_mem_planAll {hint : Hint} {b : Bracket} {items : List (Form Hint)} (p : Pending)
    (fs : List (Form Label)) (h : .seq hint b items ∈ (planAll ctx p fs).1.flatMap Form.nodes) :
    ∃ q l labelled, .seq l b labelled ∈ fs.flatMap Form.nodes ∧
      items.map Form.bare = labelled.map Form.bare ∧
      hint.layout = (ofSeq ctx q l.id b labelled).1 :=
  match fs with
  | [] => by simp [planAll_nil] at h
  | f :: fs => by
    rw [planAll_cons, List.flatMap_cons, List.mem_append] at h
    simp only [List.flatMap_cons, List.mem_append]
    rcases h with h | h
    · obtain ⟨q, l, labelled, hmem, hlayout⟩ := seq_of_mem_plan p f h
      exact ⟨q, l, labelled, .inl hmem, hlayout⟩
    · obtain ⟨q, l, labelled, hmem, hlayout⟩ := seq_of_mem_planAll _ fs h
      exact ⟨q, l, labelled, .inr hmem, hlayout⟩

end

variable {β : Type} {R : Hint → β → Prop} {A : Bool → Atom → Atom → Prop}

mutual

/-- What comes back of a plan comes back of the source, its docstrings being what is marked. -/
theorem echoes_of_plan (p : Pending) (f : Form Label) {g : Form β}
    (h : Form.Echoes R (fun hint => A hint.docstring) (plan ctx p f).1 g) :
    Form.Echoes (fun _ _ => True) (fun l => A (ctx.marks.docstrings.contains l.id)) f g :=
  match f, h with
  | .atom _ _, .atom _ hatom => .atom trivial hatom
  | .prefixed _ s body, .prefixed _ _ hbody => .prefixed s trivial (echoes_of_plan p body hbody)
  | .seq _ b items, .seq _ _ hitems => .seq b trivial (echoesAll_of_planAll _ items hitems)

theorem echoesAll_of_planAll {closed : Bool} (p : Pending) (fs : List (Form Label))
    {gs : List (Form β)}
    (h : Form.EchoesAll R (fun hint => A hint.docstring) closed (planAll ctx p fs).1 gs) :
    Form.EchoesAll (fun _ _ => True) (fun l => A (ctx.marks.docstrings.contains l.id)) closed
      fs gs :=
  match fs with
  | [] => by
    cases h
    exact .nil
  | f :: fs => by
    rw [planAll_cons] at h
    cases h with
    | keep hf hbreak hrest =>
      rw [needsBreak_planAll] at hbreak
      exact .keep (echoes_of_plan p f hf) hbreak (echoesAll_of_planAll _ fs hrest)
    | insert l hf hbreak hrest =>
      rw [needsBreak_planAll] at hbreak
      exact .insert l (echoes_of_plan p f hf) hbreak (echoesAll_of_planAll _ fs hrest)

end

end CljFormat.Layout
