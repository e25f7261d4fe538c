/-
CljFormat.Proofs.Layout.Scope — what a form says about the layout, it says of itself.

A form marks lists and strings, and decides about vectors and bodies that are still to be planned.
All of these are forms below it. So the marks of any other form stay as they are (`marks_addAll`),
and whatever is pending behind a form was pending before it or is about a form below it
(`about_planAll`).
-/
import CljFormat.Proofs.Layout.Copy
import CljFormat.Proofs.Layout.Plan
import CljFormat.Proofs.Tree.Holds

namespace CljFormat.Layout

variable {table : IndentTable} {ctx : Context} {i : Nat} {f g : Form Label}
  {items : List (Form Label)}

/-! ## 1. Items -/

theorem mem_ids_of_item (hg : g ∈ items) : g.note.id ∈ items.flatMap Form.ids :=
  List.mem_flatMap.mpr ⟨g, hg, g.id_mem_ids⟩

/-- The items of a vector among the items of a list are below the list. -/
theorem mem_ids_of_inner {inner : List (Form Label)} (hg : g ∈ items)
    (hinner : g.shape.vector? = some inner) (hf : f ∈ inner) :
    f.note.id ∈ items.flatMap Form.ids := by
  refine List.mem_flatMap.mpr ⟨g, hg, ?_⟩
  cases g with
  | seq l b items =>
    cases b with
    | vector =>
      obtain rfl : items = inner := by simpa [Form.shape, Shape.vector?] using hinner
      rw [Form.ids_seq]
      exact List.mem_cons_of_mem _ (mem_ids_of_item hf)
    | _ => simp [Form.shape, Shape.vector?] at hinner
  | _ => simp [Form.shape, Shape.vector?] at hinner

theorem mem_ids_of_below (h : i ∈ f.parts.flatMap Form.ids) : i ∈ f.ids :=
  f.ids_eq_cons ▸ List.mem_cons_of_mem _ h

theorem parts_of_call {name : String} (h : f.call? = some (name, items)) : f.parts = items := by
  obtain ⟨_, _, _, -, rfl⟩ := Form.call?_eq_some_iff.mp h
  rfl

/-! ## 2. Marks -/

theorem mem_receivers {style : ThreadFirst} {start : Nat}
    (h : i ∈ receivers style start items) : i ∈ items.flatMap Form.ids := by
  obtain ⟨⟨g, index⟩, hg, rfl⟩ := List.mem_map.mp h
  have hitem := List.fst_mem_of_mem_zipIdx (List.mem_of_mem_filter hg)
  exact mem_ids_of_item (List.mem_of_mem_filter hitem)

theorem mem_docstring (h : docstring? items = some i) : i ∈ items.flatMap Form.ids := by
  match items, h with
  | head :: defined :: rest, h =>
    obtain ⟨_, -, h⟩ := Option.bind_eq_some_iff.mp h
    obtain ⟨g, hg, h⟩ := Option.bind_eq_some_iff.mp h
    obtain ⟨_, -, h⟩ := Option.bind_eq_some_iff.mp h
    obtain rfl : g.note.id = i := by simpa using h
    have hrest : g ∈ rest := List.dropWhile_subset _ (List.mem_of_mem_head? hg)
    exact mem_ids_of_item (List.mem_cons_of_mem _ (List.mem_cons_of_mem _ hrest))

/-- Two collections of marks say the same of one identity. -/
structure Marks.SameAt (i : Nat) (m m' : Marks) : Prop where
  threaded : m'.threaded.contains i = m.threaded.contains i
  docstrings : m'.docstrings.contains i = m.docstrings.contains i

theorem Marks.SameAt.refl (m : Marks) : m.SameAt i m := ⟨rfl, rfl⟩

theorem Marks.SameAt.symm {m m' : Marks} (h : m.SameAt i m') : m'.SameAt i m :=
  ⟨h.threaded.symm, h.docstrings.symm⟩

theorem Marks.SameAt.trans {m m' m'' : Marks} (h : m.SameAt i m') (h' : m'.SameAt i m'') :
    m.SameAt i m'' :=
  ⟨h'.threaded.trans h.threaded, h'.docstrings.trans h.docstrings⟩

theorem contains_insertMany_of_notMem {s : IdSet} {is : List Nat} (h : i ∉ is) :
    (s.insertMany is).contains i = s.contains i := by
  rw [Std.TreeSet.contains_insertMany_list]
  simp [h]

theorem marks_addCall (m : Marks) (h : i ∉ f.parts.flatMap Form.ids) :
    m.SameAt i (m.addCall table f) := by
  unfold Marks.addCall
  cases hcall : f.call? with
  | none => exact .refl m
  | some c =>
    obtain ⟨head, items⟩ := c
    rw [parts_of_call hcall] at h
    constructor
    · dsimp only
      split
      · rfl
      · exact contains_insertMany_of_notMem fun hmem => h (mem_receivers hmem)
    · dsimp only
      split
      · refine contains_insertMany_of_notMem fun hmem => h (mem_docstring ?_)
        simpa using hmem
      · rfl

mutual

/-- A form leaves the marks of what is not below it alone. -/
theorem marks_add (m : Marks) :
    ∀ f : Form Label, i ∉ f.parts.flatMap Form.ids → m.SameAt i (m.add table f)
  | .atom _ _, _ => .refl m
  | .prefixed _ _ body, h =>
    marks_add m body fun hmem =>
      h (List.mem_flatMap.mpr ⟨body, List.mem_cons_self, mem_ids_of_below hmem⟩)
  | .seq _ _ items, h => (marks_addCall m h).trans (marks_addAll _ items h)

theorem marks_addAll (m : Marks) :
    ∀ fs : List (Form Label), i ∉ fs.flatMap Form.ids → m.SameAt i (m.addAll table fs)
  | [], _ => .refl m
  | f :: fs, h => by
    rw [List.flatMap_cons, List.mem_append, not_or] at h
    exact (marks_add m f fun hmem => h.1 (mem_ids_of_below hmem)).trans (marks_addAll _ fs h.2)

end

theorem addAll_append (m : Marks) (fs gs : List (Form Label)) :
    m.addAll table (fs ++ gs) = (m.addAll table fs).addAll table gs := by
  induction fs generalizing m with
  | nil => rfl
  | cons f fs ih => exact ih _

/-! ## 3. Decisions about forms inside -/

/-- Some decision is about the identity. -/
def Pending.About (p : Pending) (i : Nat) : Prop :=
  i ∈ p.bindings ∨ i ∈ p.bodies

theorem not_about_empty : ¬ Pending.About {} i := by
  rintro (h | h) <;> exact absurd h List.not_mem_nil

theorem mem_firstVector {vector : Nat} {inner : List (Form Label)}
    (h : firstVector? items = some (vector, inner)) :
    vector ∈ items.flatMap Form.ids ∧
      ∀ f ∈ inner, f.note.id ∈ items.flatMap Form.ids := by
  obtain ⟨g, hg, h⟩ := Option.bind_eq_some_iff.mp h
  obtain ⟨inner', hinner, h⟩ := Option.bind_eq_some_iff.mp h
  obtain ⟨rfl, rfl⟩ : g.note.id = vector ∧ inner' = inner := by simpa using h
  have hitem : g ∈ items := List.mem_of_mem_drop (List.mem_of_find?_eq_some hg)
  exact ⟨mem_ids_of_item hitem, fun f hf => mem_ids_of_inner hitem hinner hf⟩

theorem exists_of_mem_letModifiers (h : i ∈ letModifiers items) : ∃ f ∈ items, f.note.id = i := by
  obtain ⟨⟨key, value⟩, hpair, rfl⟩ := List.mem_map.mp h
  have hvalue := (List.of_mem_zip (List.mem_of_mem_filter hpair)).2
  exact ⟨value, List.mem_of_mem_filter (List.mem_of_mem_drop hvalue), rfl⟩

theorem exists_of_mem_listsAmong (h : i ∈ listsAmong items) : ∃ f ∈ items, f.note.id = i := by
  obtain ⟨f, hf, rfl⟩ := List.mem_map.mp h
  exact ⟨f, List.mem_of_mem_filter hf, rfl⟩

/-- A list decides about forms below it. -/
theorem about_ofCall (style : IndentStyle) (h : (Pending.ofCall style items).About i) :
    i ∈ items.flatMap Form.ids := by
  unfold Pending.ofCall at h
  split at h
  · rcases h with h | h
    · obtain ⟨⟨vector, inner⟩, hvector, rfl⟩ : ∃ v, firstVector? items = some v ∧ v.1 = i := by
        simpa using h
      exact (mem_firstVector hvector).1
    · exact absurd h List.not_mem_nil
  · split at h
    · next vector inner hvector =>
      rcases h with h | h
      · rcases List.mem_cons.mp h with rfl | h
        · exact (mem_firstVector hvector).1
        · obtain ⟨f, hf, rfl⟩ := exists_of_mem_letModifiers h
          exact (mem_firstVector hvector).2 f hf
      · exact absurd h List.not_mem_nil
    · exact absurd h not_about_empty
  · rcases h with h | h
    · exact absurd h List.not_mem_nil
    · obtain ⟨f, hf, rfl⟩ := exists_of_mem_listsAmong h
      cases hvector : firstVector? items with
      | none => simp [hvector] at hf
      | some v => exact (mem_firstVector hvector).2 f (by simpa [hvector] using hf)
  · rcases h with h | h
    · exact absurd h List.not_mem_nil
    · obtain ⟨f, hf, rfl⟩ := exists_of_mem_listsAmong h
      exact mem_ids_of_item (List.mem_of_mem_drop hf)
  · exact absurd h not_about_empty

theorem about_ofSeq {p : Pending} {id : Nat} {b : Bracket}
    (h : (ofSeq ctx p id b items).2.About i) : p.About i ∨ i ∈ items.flatMap Form.ids := by
  cases b with
  | list =>
    have hwaiting : ((Pending.ofCall (ctx.headStyle items) items).merge p).About i :=
      h.imp_right List.mem_of_mem_filter
    simp only [Pending.About, Pending.merge, List.mem_append] at hwaiting
    rcases hwaiting with (h | h) | (h | h)
    · exact .inr (about_ofCall _ (.inl h))
    · exact .inl (.inl h)
    · exact .inr (about_ofCall _ (.inr h))
    · exact .inl (.inr h)
  | vector => exact .inl (h.imp_left List.mem_of_mem_filter)
  | _ => exact .inl h

mutual

/-- What is pending behind a form was pending before it, or is about what is below it. -/
theorem about_plan {p : Pending} :
    ∀ f : Form Label, (plan ctx p f).2.About i → p.About i ∨ i ∈ f.ids
  | .atom _ _, h => .inl h
  | .prefixed _ _ body, h => (about_plan body h).imp_right (List.mem_cons_of_mem _)
  | .seq l b items, h => by
    rw [plan_seq] at h
    rw [Form.ids_seq]
    rcases about_planAll items h with h | h
    · exact (about_ofSeq h).imp_right (List.mem_cons_of_mem _)
    · exact .inr (List.mem_cons_of_mem _ h)

theorem about_planAll {p : Pending} :
    ∀ fs : List (Form Label), (planAll ctx p fs).2.About i → p.About i ∨ i ∈ fs.flatMap Form.ids
  | [], h => .inl h
  | f :: fs, h => by
    rw [planAll_cons] at h
    rw [List.flatMap_cons, List.mem_append]
    rcases about_planAll fs h with h | h
    · exact (about_plan f h).imp_right .inl
    · exact .inr (.inr h)

end

end CljFormat.Layout
