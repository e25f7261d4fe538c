/-
CljFormat.Proofs.Form.Echo — forms that are written and read again.

A source that is written and read again comes back as the same forms but for two things: a comment
that has no line break behind it gets one, and the text of some strings is set anew. `Form.Echoes`
relates a form to what comes back. What may become of an atom and of an annotation is left open: a
round trip says which strings change and how, and a second layout says that identities correspond.

A comment at the end of a sequence is broken off from the closing delimiter. The last comment of a
source is not, since nothing follows it: `closed` tells the two apart.
-/
import CljFormat.Proofs.Form.Spellings

namespace CljFormat

variable {α β γ : Type}

/-- Whether a line break has to be put in front of `rest`, given whether a comment stands before it.
The end of a closed sequence is its closing delimiter. -/
def needsBreak (closed afterComment : Bool) (rest : List (Form α)) : Bool :=
  afterComment &&
    match rest with
    | [] => closed
    | f :: _ => !f.isNewline

@[simp] theorem needsBreak_bare (closed afterComment : Bool) (rest : List (Form α)) :
    needsBreak closed afterComment (rest.map Form.bare) = needsBreak closed afterComment rest := by
  cases rest <;> simp [needsBreak]

/-- Two atoms are equal, or both are strings. -/
def Atom.Alike (x y : Atom) : Prop :=
  x = y ∨ ∃ text text', x = .string text ∧ y = .string text'

namespace Form

/-! ## 1. The relation -/

mutual

/-- A form comes back as another, annotations related by `R` and atoms by `A`. -/
inductive Echoes (R : α → β → Prop) (A : α → Atom → Atom → Prop) : Form α → Form β → Prop
  | atom {l : α} {l' : β} {x y : Atom} : R l l' → A l x y → Echoes R A (.atom l x) (.atom l' y)
  | prefixed {l : α} {l' : β} (s : Sigil) {body : Form α} {body' : Form β} : R l l' →
      Echoes R A body body' → Echoes R A (.prefixed l s body) (.prefixed l' s body')
  | seq {l : α} {l' : β} (b : Bracket) {items : List (Form α)} {items' : List (Form β)} :
      R l l' → EchoesAll R A true items items' → Echoes R A (.seq l b items) (.seq l' b items')

/-- Neighbouring forms come back as others, in a closed sequence or not. -/
inductive EchoesAll (R : α → β → Prop) (A : α → Atom → Atom → Prop) :
    Bool → List (Form α) → List (Form β) → Prop
  | nil {closed : Bool} : EchoesAll R A closed [] []
  | keep {closed : Bool} {f : Form α} {g : Form β} {fs : List (Form α)} {gs : List (Form β)} :
      Echoes R A f g → needsBreak closed f.isComment fs = false → EchoesAll R A closed fs gs →
      EchoesAll R A closed (f :: fs) (g :: gs)
  | insert {closed : Bool} {f : Form α} {g : Form β} {fs : List (Form α)} {gs : List (Form β)}
      (l : β) : Echoes R A f g → needsBreak closed f.isComment fs = true →
      EchoesAll R A closed fs gs → EchoesAll R A closed (f :: fs) (g :: .atom l .newline :: gs)

end

variable {R R' : α → β → Prop} {A A' : α → Atom → Atom → Prop} {f : Form α} {g : Form β}
  {fs : List (Form α)} {gs : List (Form β)} {closed : Bool}

mutual

/-- A weaker relation between annotations and atoms is a weaker relation between forms. -/
theorem Echoes.mono (hR : ∀ l l', R l l' → R' l l') (hA : ∀ l x y, A l x y → A' l x y)
    {f : Form α} {g : Form β} : Echoes R A f g → Echoes R' A' f g
  | .atom h h' => .atom (hR _ _ h) (hA _ _ _ h')
  | .prefixed s h hbody => .prefixed s (hR _ _ h) (hbody.mono hR hA)
  | .seq b h hitems => .seq b (hR _ _ h) (hitems.mono hR hA)

theorem EchoesAll.mono (hR : ∀ l l', R l l' → R' l l') (hA : ∀ l x y, A l x y → A' l x y)
    {closed : Bool} {fs : List (Form α)} {gs : List (Form β)} :
    EchoesAll R A closed fs gs → EchoesAll R' A' closed fs gs
  | .nil => .nil
  | .keep hf hbreak hrest => .keep (hf.mono hR hA) hbreak (hrest.mono hR hA)
  | .insert l hf hbreak hrest => .insert l (hf.mono hR hA) hbreak (hrest.mono hR hA)

end

mutual

/-- What comes back is related as far as its kinds and texts go. -/
theorem Echoes.of_bare {g : Form β} {g' : Form γ} {f : Form α} :
    Echoes R A f g → g'.bare = g.bare → Echoes (fun _ _ => True) A f g'
  | .atom _ hA, h => by
    cases g' with
    | atom l y =>
      simp only [bare_atom, atom.injEq, true_and] at h
      exact h ▸ .atom trivial hA
    | _ => simp at h
  | .prefixed s _ hbody, h => by
    cases g' with
    | prefixed l s' body =>
      simp only [bare_prefixed, prefixed.injEq, true_and] at h
      exact h.1 ▸ .prefixed _ trivial (hbody.of_bare h.2)
    | _ => simp at h
  | .seq b _ hitems, h => by
    cases g' with
    | seq l b' items =>
      simp only [bare_seq, seq.injEq, true_and] at h
      exact h.1 ▸ .seq _ trivial (hitems.of_bare h.2)
    | _ => simp at h

theorem EchoesAll.of_bare {closed : Bool} {gs : List (Form β)} {gs' : List (Form γ)}
    {fs : List (Form α)} :
    EchoesAll R A closed fs gs → gs'.map bare = gs.map bare →
      EchoesAll (fun _ _ => True) A closed fs gs'
  | .nil, h => by
    obtain rfl := List.map_eq_nil_iff.mp h
    exact .nil
  | .keep hf hbreak hrest, h => by
    obtain ⟨g', gs'', rfl, hg, hgs⟩ := List.map_eq_cons_iff.mp h
    exact .keep (hf.of_bare hg) hbreak (hrest.of_bare hgs)
  | .insert l hf hbreak hrest, h => by
    obtain ⟨g', later, rfl, hg, hlater⟩ := List.map_eq_cons_iff.mp h
    obtain ⟨n, gs'', rfl, hn, hgs⟩ := List.map_eq_cons_iff.mp hlater
    obtain ⟨l', rfl⟩ : ∃ l', n = .atom l' .newline := by
      cases n with
      | atom l' y => exact ⟨l', by simpa using hn⟩
      | _ => simp at hn
    exact .insert l' (hf.of_bare hg) hbreak (hrest.of_bare hgs)

end

/-! ## 2. What comes back is of the same kind -/

section kinds

variable (hA : ∀ l x y, A l x y → x.Alike y)

include hA

theorem Echoes.kind (h : Echoes R A f g) :
    g.isNewline = f.isNewline ∧ g.isComment = f.isComment ∧ g.isPaired = f.isPaired := by
  cases h with
  | @atom l l' x y hR hatom =>
    rcases hA l x y hatom with rfl | ⟨text, text', rfl, rfl⟩
    · cases x <;> exact ⟨rfl, rfl, rfl⟩
    · exact ⟨rfl, rfl, rfl⟩
  | prefixed s hR hbody => cases s <;> exact ⟨rfl, rfl, rfl⟩
  | seq b hR hitems => exact ⟨rfl, rfl, rfl⟩

theorem Echoes.isSemantic (h : Echoes R A f g) : g.isSemantic = f.isSemantic := by
  rw [Bool.eq_iff_iff, isSemantic_iff, isSemantic_iff, (h.kind hA).1, (h.kind hA).2.1]

/-- Names and keywords stay, and strings stay strings. -/
theorem Echoes.texts (h : Echoes R A f g) :
    g.shape.symbol? = f.shape.symbol? ∧ g.shape.keyword? = f.shape.keyword? ∧
      g.shape.string?.isSome = f.shape.string?.isSome := by
  cases h with
  | @atom l l' x y hR hatom =>
    rcases hA l x y hatom with rfl | ⟨text, text', rfl, rfl⟩
    · cases x <;> exact ⟨rfl, rfl, rfl⟩
    · exact ⟨rfl, rfl, rfl⟩
  | prefixed s hR hbody => exact ⟨rfl, rfl, rfl⟩
  | seq b hR hitems => exact ⟨rfl, rfl, rfl⟩

/-- Line breaks are no keys or values, so as many items pair up as before. -/
theorem EchoesAll.countP_isPaired (h : EchoesAll R A closed fs gs) :
    gs.countP Form.isPaired = fs.countP Form.isPaired := by
  induction fs generalizing gs with
  | nil =>
    cases h
    rfl
  | cons f fs ih =>
    cases h with
    | keep hf _ hrest => rw [List.countP_cons, List.countP_cons, ih hrest, (hf.kind hA).2.2]
    | insert l hf _ hrest =>
      rw [List.countP_cons, List.countP_cons, List.countP_cons, ih hrest, (hf.kind hA).2.2]
      rfl

end kinds

/-! ## 3. What comes back is readable -/

mutual

/-- What comes back of a readable form is readable if its atoms are. -/
theorem Echoes.readable {inside : Bool} {f : Form α} {g : Form β} (h : Echoes R A f g)
    (hA : ∀ l x y, A l x y → x.Alike y) (hf : f.Readable inside)
    (hatoms : ∀ l x y, .atom l x ∈ f.nodes → A l x y → x.Readable → y.Readable) :
    g.Readable inside :=
  match h with
  | .atom _ hatom => hatoms _ _ _ (self_mem_nodes _) hatom hf
  | .prefixed _ _ hbody => by
    obtain ⟨hsem, hreadable⟩ := readable_prefixed.mp hf
    rw [readable_prefixed, hbody.isSemantic hA]
    exact ⟨hsem, hbody.readable hA hreadable fun l x y hx => hatoms l x y (mem_nodes_of_body hx)⟩
  | .seq b _ hitems => by
    obtain ⟨hb, hreadable⟩ := readable_seq.mp hf
    refine readable_seq.mpr ⟨?_, hitems.readable hA hreadable fun f hf l x y hx =>
      hatoms l x y (mem_nodes_of_mem hf hx)⟩
    cases b with
    | map ns => exact ⟨by rw [hitems.countP_isPaired hA]; exact hb.1, hb.2⟩
    | _ => exact hb

theorem EchoesAll.readable {inside closed : Bool} {fs : List (Form α)} {gs : List (Form β)}
    (h : EchoesAll R A closed fs gs) (hA : ∀ l x y, A l x y → x.Alike y)
    (hfs : ∀ f ∈ fs, f.Readable inside)
    (hatoms : ∀ f ∈ fs, ∀ l x y, .atom l x ∈ f.nodes → A l x y → x.Readable → y.Readable) :
    ∀ g ∈ gs, g.Readable inside :=
  match h with
  | .nil => by simp
  | .keep (f := f) hf _ hrest => by
    rw [List.forall_mem_cons] at hfs hatoms ⊢
    exact ⟨hf.readable hA hfs.1 hatoms.1, hrest.readable hA hfs.2 hatoms.2⟩
  | .insert l hf _ hrest => by
    rw [List.forall_mem_cons] at hfs hatoms
    rw [List.forall_mem_cons, List.forall_mem_cons]
    exact ⟨hf.readable hA hfs.1 hatoms.1, trivial, hrest.readable hA hfs.2 hatoms.2⟩

end

mutual

/-- Everything below what comes back is a line break or comes back from below. -/
theorem Echoes.nodes {f : Form α} {g g' : Form β} (h : Echoes R A f g) (hg : g' ∈ g.nodes) :
    g'.isNewline = true ∨ ∃ f' ∈ f.nodes, Echoes R A f' g' :=
  match h with
  | .atom hR hatom => by
    obtain rfl := List.mem_singleton.mp hg
    exact .inr ⟨_, self_mem_nodes _, .atom hR hatom⟩
  | .prefixed s hR hbody => by
    rw [nodes_prefixed] at hg
    rcases List.mem_cons.mp hg with rfl | hg
    · exact .inr ⟨_, self_mem_nodes _, .prefixed s hR hbody⟩
    · rcases hbody.nodes hg with hbreak | ⟨f', hf', hecho⟩
      · exact .inl hbreak
      · exact .inr ⟨f', mem_nodes_of_body hf', hecho⟩
  | .seq b hR hitems => by
    rw [nodes_seq] at hg
    rcases List.mem_cons.mp hg with rfl | hg
    · exact .inr ⟨_, self_mem_nodes _, .seq b hR hitems⟩
    · rcases hitems.nodes hg with hbreak | ⟨f', hf', hecho⟩
      · exact .inl hbreak
      · rw [nodes_seq]
        exact .inr ⟨f', List.mem_cons_of_mem _ hf', hecho⟩

theorem EchoesAll.nodes {closed : Bool} {fs : List (Form α)} {gs : List (Form β)} {g' : Form β}
    (h : EchoesAll R A closed fs gs) (hg : g' ∈ gs.flatMap Form.nodes) :
    g'.isNewline = true ∨ ∃ f' ∈ fs.flatMap Form.nodes, Echoes R A f' g' :=
  match h with
  | .nil => by simp at hg
  | .keep hf _ hrest => by
    rw [List.flatMap_cons, List.mem_append] at hg
    simp only [List.flatMap_cons, List.mem_append]
    rcases hg with hg | hg
    · rcases hf.nodes hg with hbreak | ⟨f', hf', hecho⟩
      · exact .inl hbreak
      · exact .inr ⟨f', .inl hf', hecho⟩
    · rcases hrest.nodes hg with hbreak | ⟨f', hf', hecho⟩
      · exact .inl hbreak
      · exact .inr ⟨f', .inr hf', hecho⟩
  | .insert l hf _ hrest => by
    rw [List.flatMap_cons, List.flatMap_cons, List.mem_append, List.mem_append] at hg
    simp only [List.flatMap_cons, List.mem_append]
    rcases hg with hg | hg | hg
    · rcases hf.nodes hg with hbreak | ⟨f', hf', hecho⟩
      · exact .inl hbreak
      · exact .inr ⟨f', .inl hf', hecho⟩
    · obtain rfl := List.mem_singleton.mp hg
      exact .inl rfl
    · rcases hrest.nodes hg with hbreak | ⟨f', hf', hecho⟩
      · exact .inl hbreak
      · exact .inr ⟨f', .inr hf', hecho⟩

end

/-! ## 4. Which annotations correspond -/

mutual

/-- The annotations that an echo pairs up: each one of the form in order, with some of those of what
comes back in order. -/
theorem Echoes.pairs {f : Form α} {g : Form β} (h : Echoes R A f g) :
    ∃ ps : List (α × β), Echoes (fun l l' => (l, l') ∈ ps) A f g ∧
      ps.map Prod.fst = f.nodes.map note ∧ (ps.map Prod.snd).Sublist (g.nodes.map note) :=
  match h with
  | @Echoes.atom _ _ _ _ l l' x y _ hatom =>
    ⟨[(l, l')], .atom List.mem_cons_self hatom, rfl, List.Sublist.refl _⟩
  | @Echoes.prefixed _ _ _ _ l l' s body body' _ hbody => by
    obtain ⟨ps, hecho, hfst, hsnd⟩ := hbody.pairs
    refine ⟨(l, l') :: ps, .prefixed s List.mem_cons_self ?_, ?_, ?_⟩
    · exact hecho.mono (fun _ _ h => List.mem_cons_of_mem _ h) fun _ _ _ h => h
    · simp [hfst, note]
    · simpa [note] using hsnd
  | @Echoes.seq _ _ _ _ l l' b items items' _ hitems => by
    obtain ⟨ps, hecho, hfst, hsnd⟩ := hitems.pairs
    refine ⟨(l, l') :: ps, .seq b List.mem_cons_self ?_, ?_, ?_⟩
    · exact hecho.mono (fun _ _ h => List.mem_cons_of_mem _ h) fun _ _ _ h => h
    · rw [List.map_cons, hfst, nodes_seq]
      rfl
    · rw [List.map_cons, nodes_seq]
      exact hsnd.cons_cons _

theorem EchoesAll.pairs {closed : Bool} {fs : List (Form α)} {gs : List (Form β)}
    (h : EchoesAll R A closed fs gs) :
    ∃ ps : List (α × β), EchoesAll (fun l l' => (l, l') ∈ ps) A closed fs gs ∧
      ps.map Prod.fst = (fs.flatMap Form.nodes).map note ∧
        (ps.map Prod.snd).Sublist ((gs.flatMap Form.nodes).map note) :=
  match h with
  | .nil => ⟨[], .nil, rfl, List.Sublist.refl _⟩
  | .keep hf hbreak hrest => by
    obtain ⟨ps, hecho, hfst, hsnd⟩ := hf.pairs
    obtain ⟨qs, hechoes, hfsts, hsnds⟩ := hrest.pairs
    refine ⟨ps ++ qs, .keep ?_ hbreak ?_, ?_, ?_⟩
    · exact hecho.mono (fun _ _ h => List.mem_append_left _ h) fun _ _ _ h => h
    · exact hechoes.mono (fun _ _ h => List.mem_append_right _ h) fun _ _ _ h => h
    · rw [List.map_append, hfst, hfsts, List.flatMap_cons, List.map_append]
    · rw [List.map_append, List.flatMap_cons, List.map_append]
      exact hsnd.append hsnds
  | .insert l hf hbreak hrest => by
    obtain ⟨ps, hecho, hfst, hsnd⟩ := hf.pairs
    obtain ⟨qs, hechoes, hfsts, hsnds⟩ := hrest.pairs
    refine ⟨ps ++ qs, .insert l ?_ hbreak ?_, ?_, ?_⟩
    · exact hecho.mono (fun _ _ h => List.mem_append_left _ h) fun _ _ _ h => h
    · exact hechoes.mono (fun _ _ h => List.mem_append_right _ h) fun _ _ _ h => h
    · rw [List.map_append, hfst, hfsts, List.flatMap_cons, List.map_append]
    · rw [List.map_append, List.flatMap_cons, List.flatMap_cons, List.map_append, List.map_append]
      exact hsnd.append (hsnds.cons _)

end

end Form

end CljFormat
