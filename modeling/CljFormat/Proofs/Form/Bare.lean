/-
CljFormat.Proofs.Form.Bare — forms without their annotations, and the forms below a form.

`bare` forgets where a form was read or how it is laid out. Two forms have the same kinds, texts and
parts at every depth exactly when their bare forms are equal, so "the same tree, positions aside" is
an equation.

`nodes` lists a form and everything below it in document order. A condition on a whole source, such
as "no tag in it starts with `_`", is a condition on the members of that list. An `Extract` lists
what the atoms and sigils of a source say in that order, such as the texts of its comments.

A form holds a list of forms, so its own recursion principle speaks of two types. `Form.induct` is
the one that proofs use: what holds of all items of a sequence holds of the sequence.
-/
import CljFormat.Form

namespace CljFormat.Form

variable {α β : Type}

/-! ## Induction -/

/-- Induction over forms, with one hypothesis for all items of a sequence. -/
@[elab_as_elim]
theorem induct {motive : Form α → Prop}
    (atom : ∀ note x, motive (.atom note x))
    (prefixed : ∀ note s body, motive body → motive (.prefixed note s body))
    (seq : ∀ note b items, (∀ f ∈ items, motive f) → motive (.seq note b items))
    (f : Form α) : motive f :=
  @Form.rec α motive (fun items => ∀ f ∈ items, motive f) atom prefixed seq
    (fun f hf => absurd hf List.not_mem_nil)
    (fun _ _ hfirst hrest f hf => by
      rcases List.mem_cons.mp hf with rfl | hmem
      · exact hfirst
      · exact hrest f hmem)
    f

/-- Induction over forms, with one hypothesis for all parts of a form. -/
@[elab_as_elim]
theorem inductParts {motive : Form α → Prop} (step : ∀ f, (∀ g ∈ f.parts, motive g) → motive f)
    (f : Form α) : motive f := by
  induction f using Form.induct with
  | atom note x => exact step _ fun g hg => absurd hg List.not_mem_nil
  | prefixed note s body ih => exact step _ fun g hg => List.mem_singleton.mp hg ▸ ih
  | seq note b items ih => exact step _ ih

/-! ## Bare forms -/

mutual

/-- A form without its annotations. -/
def bare : Form α → Form Unit
  | .atom _ x => .atom () x
  | .prefixed _ s body => .prefixed () s body.bare
  | .seq _ b items => .seq () b (bareAll items)

/-- Neighbouring forms without their annotations. -/
def bareAll : List (Form α) → List (Form Unit)
  | [] => []
  | f :: rest => f.bare :: bareAll rest

end

@[simp] theorem bareAll_eq_map (fs : List (Form α)) : bareAll fs = fs.map bare := by
  induction fs with
  | nil => rfl
  | cons f rest ih => simp [bareAll, ih]

@[simp] theorem bare_atom (note : α) (x : Atom) : bare (.atom note x) = .atom () x := rfl

@[simp] theorem bare_prefixed (note : α) (s : Sigil) (body : Form α) :
    bare (.prefixed note s body) = .prefixed () s body.bare := rfl

@[simp] theorem bare_seq (note : α) (b : Bracket) (items : List (Form α)) :
    bare (.seq note b items) = .seq () b (items.map bare) := by
  simp [bare]

@[simp] theorem isNewline_bare (f : Form α) : f.bare.isNewline = f.isNewline := by
  cases f with
  | atom note x => cases x <;> rfl
  | prefixed note s body => rfl
  | seq note b items => rfl

@[simp] theorem isComment_bare (f : Form α) : f.bare.isComment = f.isComment := by
  cases f with
  | atom note x => cases x <;> rfl
  | prefixed note s body => rfl
  | seq note b items => rfl

@[simp] theorem isSemantic_bare (f : Form α) : f.bare.isSemantic = f.isSemantic := by
  have hn := isNewline_bare f
  have hc := isComment_bare f
  simp only [isNewline, isComment] at hn hc
  simp [isSemantic, Shape.isSemantic, hn, hc]

@[simp] theorem isPaired_bare (f : Form α) : f.bare.isPaired = f.isPaired := by
  cases f with
  | atom note x => cases x <;> rfl
  | prefixed note s body => cases s <;> rfl
  | seq note b items => rfl

@[simp] theorem symbol_bare (f : Form α) : f.bare.shape.symbol? = f.shape.symbol? := by
  cases f with
  | atom note x => cases x <;> rfl
  | prefixed note s body => rfl
  | seq note b items => rfl

@[simp] theorem keyword_bare (f : Form α) : f.bare.shape.keyword? = f.shape.keyword? := by
  cases f with
  | atom note x => cases x <;> rfl
  | prefixed note s body => rfl
  | seq note b items => rfl

@[simp] theorem list_bare (f : Form α) : f.bare.shape.list?.isSome = f.shape.list?.isSome := by
  cases f with
  | seq note b items => cases b <;> rfl
  | _ => rfl

/-- The only line break. -/
theorem eq_newline {f : Form α} (h : f.isNewline = true) : ∃ note, f = .atom note .newline := by
  cases f with
  | atom note x =>
    cases x with
    | newline => exact ⟨note, rfl⟩
    | _ => exact absurd h (by simp [isNewline, shape, Shape.isNewline])
  | _ => exact absurd h (by simp [isNewline, shape, Shape.isNewline])

theorem eq_symbol {f : Form α} {name : String} (h : f.shape.symbol? = some name) :
    ∃ note, f = .atom note (.symbol name) := by
  cases f with
  | atom note x =>
    cases x with
    | symbol text =>
      obtain rfl : text = name := by simpa [shape, Shape.symbol?] using h
      exact ⟨note, rfl⟩
    | _ => simp [shape, Shape.symbol?] at h
  | _ => simp [shape, Shape.symbol?] at h

theorem eq_string {f : Form α} {value : String} (h : f.shape.string? = some value) :
    ∃ note, f = .atom note (.string value) := by
  cases f with
  | atom note x =>
    cases x with
    | string text =>
      obtain rfl : text = value := by simpa [shape, Shape.string?] using h
      exact ⟨note, rfl⟩
    | _ => simp [shape, Shape.string?] at h
  | _ => simp [shape, Shape.string?] at h

theorem eq_keyword {f : Form α} {text : String} (h : f.shape.keyword? = some text) :
    ∃ note, f = .atom note (.keyword text) := by
  cases f with
  | atom note x =>
    cases x with
    | keyword text' =>
      obtain rfl : text' = text := by simpa [shape, Shape.keyword?] using h
      exact ⟨note, rfl⟩
    | _ => simp [shape, Shape.keyword?] at h
  | _ => simp [shape, Shape.keyword?] at h

theorem list?_eq_some_iff {f : Form α} {items : List (Form α)} :
    f.shape.list? = some items ↔ ∃ note, f = .seq note .list items := by
  cases f with
  | seq note b items => cases b <;> simp [shape, Shape.list?]
  | _ => simp [shape, Shape.list?]

theorem parts_of_listOrVector {f : Form α} {items : List (Form α)}
    (h : f.shape.listOrVector? = some items) : f.parts = items := by
  cases f with
  | seq note b items' =>
    cases b <;>
      simp_all [shape, Shape.listOrVector?, Shape.list?, Shape.vector?, parts, Shape.parts]
  | _ => simp [shape, Shape.listOrVector?, Shape.list?, Shape.vector?] at h

/-- A call is a list with a symbol in front. -/
theorem call?_eq_some_iff {f : Form α} {name : String} {items : List (Form α)} :
    f.call? = some (name, items) ↔
      ∃ note k later, items = .atom k (.symbol name) :: later ∧ f = .seq note .list items := by
  constructor
  · intro h
    obtain ⟨items', hlist, h⟩ := Option.bind_eq_some_iff.mp h
    obtain ⟨head, hhead, h⟩ := Option.bind_eq_some_iff.mp h
    obtain ⟨name', hname, h⟩ := Option.bind_eq_some_iff.mp h
    obtain ⟨rfl, rfl⟩ : name' = name ∧ items' = items := by simpa using h
    obtain ⟨note, rfl⟩ := list?_eq_some_iff.mp hlist
    obtain ⟨later, rfl⟩ := List.head?_eq_some_iff.mp hhead
    obtain ⟨k, rfl⟩ := eq_symbol hname
    exact ⟨note, k, later, rfl, rfl⟩
  · rintro ⟨note, k, later, rfl, rfl⟩
    rfl

theorem isCallOf_iff {f : Form α} {name : String} :
    f.isCallOf name = true ↔
      ∃ note k rest, f = .seq note .list (.atom k (.symbol name) :: rest) := by
  have hcall : f.isCallOf name = true ↔ ∃ items, f.call? = some (name, items) := by
    unfold isCallOf
    cases f.call? with
    | none => simp
    | some call =>
      obtain ⟨head, items⟩ := call
      simp
  rw [hcall]
  constructor
  · rintro ⟨items, h⟩
    obtain ⟨note, k, rest, rfl, rfl⟩ := call?_eq_some_iff.mp h
    exact ⟨note, k, rest, rfl⟩
  · rintro ⟨note, k, rest, rfl⟩
    exact ⟨_, call?_eq_some_iff.mpr ⟨note, k, rest, rfl, rfl⟩⟩

/-- Whether a list is a call depends on its first item. -/
theorem call?_list (note : α) (items : List (Form α)) :
    (seq note .list items).call?
      = (items.head?.bind fun head => head.shape.symbol?).map fun name => (name, items) := by
  cases items with
  | nil => rfl
  | cons head rest =>
    have hlist : (seq note .list (head :: rest)).call?
        = head.shape.symbol?.bind fun name => some (name, head :: rest) := rfl
    rw [hlist, List.head?_cons, Option.bind_some]
    cases head.shape.symbol? <;> rfl

/-- Code is neither a line break nor a comment. -/
theorem isSemantic_iff {f : Form α} :
    f.isSemantic = true ↔ f.isNewline = false ∧ f.isComment = false := by
  simp [isSemantic, Shape.isSemantic, isNewline, isComment]

/-! ## The forms below a form -/

mutual

/-- A form and the forms below it, in document order. -/
def nodes : Form α → List (Form α)
  | .atom note x => [.atom note x]
  | .prefixed note s body => .prefixed note s body :: body.nodes
  | .seq note b items => .seq note b items :: nodesAll items

/-- Neighbouring forms and the forms below them, in document order. -/
def nodesAll : List (Form α) → List (Form α)
  | [] => []
  | f :: rest => f.nodes ++ nodesAll rest

end

@[simp] theorem nodesAll_eq_flatMap (fs : List (Form α)) : nodesAll fs = fs.flatMap nodes := by
  induction fs with
  | nil => rfl
  | cons f rest ih => simp [nodesAll, ih]

@[simp] theorem nodes_atom (note : α) (x : Atom) : nodes (.atom note x) = [.atom note x] := rfl

@[simp] theorem nodes_prefixed (note : α) (s : Sigil) (body : Form α) :
    nodes (.prefixed note s body) = .prefixed note s body :: body.nodes := rfl

@[simp] theorem nodes_seq (note : α) (b : Bracket) (items : List (Form α)) :
    nodes (.seq note b items) = .seq note b items :: items.flatMap nodes := by
  simp [nodes]

/-- The forms below a bare form. -/
theorem nodes_bare (f : Form α) : f.bare.nodes = f.nodes.map bare := by
  induction f using Form.induct with
  | atom note x => rfl
  | prefixed note s body ih => simp [ih]
  | seq note b items ih =>
    simp only [bare_seq, nodes_seq, List.map_cons, List.flatMap_map, List.map_flatMap]
    rw [List.flatMap_def, List.flatMap_def, List.map_congr_left ih]

theorem nodes_eq_cons (f : Form α) : f.nodes = f :: f.parts.flatMap nodes := by
  cases f <;> simp [parts, shape, Shape.parts]

theorem mem_nodes_iff {f g : Form α} : g ∈ f.nodes ↔ g = f ∨ ∃ k ∈ f.parts, g ∈ k.nodes := by
  rw [nodes_eq_cons, List.mem_cons, List.mem_flatMap]

theorem self_mem_nodes (f : Form α) : f ∈ f.nodes :=
  mem_nodes_iff.mpr (.inl rfl)

/-- The parts of what stands below a form stand below it too. -/
theorem mem_nodes_of_part {f g k : Form α} (hg : g ∈ f.nodes) (hk : k ∈ g.parts) :
    k ∈ f.nodes := by
  induction f using inductParts with
  | step f ih =>
    rw [mem_nodes_iff] at hg ⊢
    right
    rcases hg with rfl | ⟨p, hp, hg⟩
    · exact ⟨k, hk, k.self_mem_nodes⟩
    · exact ⟨p, hp, ih p hp hg⟩

theorem mem_nodes_trans {f g k : Form α} (hg : g ∈ f.nodes) (hk : k ∈ g.nodes) :
    k ∈ f.nodes := by
  induction g using inductParts with
  | step g ih =>
    rcases mem_nodes_iff.mp hk with rfl | ⟨p, hp, hk⟩
    · exact hg
    · exact ih p hp (mem_nodes_of_part hg hp) hk

/-- What stands below a form is the form itself or a part of something below it. -/
theorem eq_or_mem_parts {f g : Form α} (hg : g ∈ f.nodes) : g = f ∨ ∃ k ∈ f.nodes, g ∈ k.parts := by
  induction f using inductParts with
  | step f ih =>
    rcases mem_nodes_iff.mp hg with rfl | ⟨p, hp, hg⟩
    · exact .inl rfl
    · right
      rcases ih p hp hg with rfl | ⟨k, hk, hgk⟩
      · exact ⟨f, f.self_mem_nodes, hp⟩
      · exact ⟨k, mem_nodes_iff.mpr (.inr ⟨p, hp, hk⟩), hgk⟩

/-- What stands below an item stands below the sequence. -/
theorem mem_nodes_of_mem {note : α} {b : Bracket} {items : List (Form α)} {f g : Form α}
    (hf : f ∈ items) (hg : g ∈ f.nodes) : g ∈ nodes (.seq note b items) := by
  rw [nodes_seq]
  exact List.mem_cons_of_mem _ (List.mem_flatMap.mpr ⟨f, hf, hg⟩)

theorem mem_nodes_of_body {note : α} {s : Sigil} {body g : Form α} (hg : g ∈ body.nodes) :
    g ∈ nodes (.prefixed note s body) := by
  rw [nodes_prefixed]
  exact List.mem_cons_of_mem _ hg

/-- Nothing but itself stands below a line break. -/
theorem isNewline_of_mem_nodes {f g : Form α} (hg : g ∈ f.nodes) (h : g.isNewline = false) :
    f.isNewline = false := by
  cases hf : f.isNewline with
  | false => rfl
  | true =>
    obtain ⟨note, rfl⟩ := eq_newline hf
    obtain rfl : g = .atom note .newline := List.mem_singleton.mp hg
    exact absurd h (by simp [hf])

theorem mem_nodesAll {fs : List (Form α)} {f g : Form α} (hf : f ∈ fs) (hg : g ∈ f.nodes) :
    g ∈ nodesAll fs := by
  rw [nodesAll_eq_flatMap]
  exact List.mem_flatMap.mpr ⟨f, hf, hg⟩

/-- The parts of what stands in a source stand in it too. -/
theorem mem_nodesAll_of_part {fs : List (Form α)} {g k : Form α} (hg : g ∈ nodesAll fs)
    (hk : k ∈ g.parts) : k ∈ nodesAll fs := by
  rw [nodesAll_eq_flatMap] at hg
  obtain ⟨f, hf, hg⟩ := List.mem_flatMap.mp hg
  exact mem_nodesAll hf (mem_nodes_of_part hg hk)

/-! ## Extracts -/

/-- What is listed of a source: something for each atom, and for each sigil in front of what stands
under it. -/
structure Extract (γ : Type) where
  ofAtom : Atom → List γ
  ofSigil : Sigil → List γ

namespace Extract

variable {γ : Type} (e : Extract γ)

/-- What a form adds by itself, its parts aside. -/
def ofNode : Form α → List γ
  | .atom _ x => e.ofAtom x
  | .prefixed _ s _ => e.ofSigil s
  | .seq _ _ _ => []

/-- What is listed of a form, in document order. -/
def ofForm (f : Form α) : List γ :=
  f.nodes.flatMap e.ofNode

@[simp] theorem ofForm_atom (note : α) (x : Atom) : e.ofForm (.atom note x) = e.ofAtom x :=
  List.flatMap_singleton ..

@[simp] theorem ofForm_prefixed (note : α) (s : Sigil) (body : Form α) :
    e.ofForm (.prefixed note s body) = e.ofSigil s ++ e.ofForm body := rfl

@[simp] theorem ofForm_seq (note : α) (b : Bracket) (items : List (Form α)) :
    e.ofForm (.seq note b items) = items.flatMap e.ofForm := by
  rw [ofForm, nodes_seq, List.flatMap_cons, List.flatMap_assoc]
  rfl

/-- What is listed of a form does not depend on its annotations. -/
@[simp] theorem ofForm_bare (f : Form α) : e.ofForm f.bare = e.ofForm f := by
  induction f using Form.induct with
  | atom note x => rfl
  | prefixed note s body ih => rw [bare_prefixed, ofForm_prefixed, ofForm_prefixed, ih]
  | seq note b items ih =>
    rw [bare_seq, ofForm_seq, ofForm_seq, List.flatMap_map, List.flatMap_def, List.flatMap_def]
    exact congrArg List.flatten (List.map_congr_left ih)

theorem flatMap_ofForm_bare (fs : List (Form α)) :
    (fs.map bare).flatMap e.ofForm = fs.flatMap e.ofForm := by
  simp [List.flatMap_map]

end Extract

end CljFormat.Form
