/-
CljFormat.Proofs.Layout.Inside — a change inside a sequence stays inside.

Two sources that differ in the items of one sequence are planned alike everywhere else, and the
sequence itself is laid out alike in both, as long as its first item is the same and symbols keep
their styles (`planned_replaced`). For what is planned around the sequence looks at the sequence
only to see what kind of form it is (`face`), and whatever the sequence says about the layout it
says of forms below it.

The argument is about two sources with the same identities. All that is remembered while they are
planned is the same but for identities below the changed sequence (`SameOff`).
-/
import CljFormat.Proofs.Form.Replace
import CljFormat.Proofs.Layout.Columns
import CljFormat.Proofs.Layout.Scope
import CljFormat.Proofs.Layout.Twin

namespace CljFormat.Layout

open List (Forall₂)
open Form (Replaces ReplacesAmong)

variable {table : IndentTable} {ctx : Context} {i : Nat} {S : List Nat} {p q : Pending}
  {m m' : Marks} {s s' f g : Form Label} {items items' fs gs : List (Form Label)}

/-! ## 1. Faces -/

/-- A form whose parts are cut off. -/
def face : Form Label → Form Label
  | .atom l x => .atom l x
  | .prefixed l s _ => .prefixed l s (.atom l .nil)
  | .seq l b _ => .seq l b []

theorem face_eq (hnote : g.note = f.note) (hhead : g.shape.head = f.shape.head) :
    face g = face f := by
  rcases Form.cases_of_head hhead with ⟨_, _, x, rfl, rfl⟩ | ⟨_, _, s, _, _, rfl, rfl⟩ |
    ⟨_, _, b, _, _, rfl, rfl⟩ <;> simpa [face, Form.note] using hnote

@[simp] theorem note_face (f : Form Label) : (face f).note = f.note := by
  cases f <;> rfl

@[simp] theorem isSemantic_face (f : Form Label) : (face f).isSemantic = f.isSemantic := by
  cases f <;> rfl

@[simp] theorem isNewline_face (f : Form Label) : (face f).isNewline = f.isNewline := by
  cases f <;> rfl

@[simp] theorem symbol_face (f : Form Label) :
    (face f).shape.symbol? = f.shape.symbol? := by
  cases f <;> rfl

@[simp] theorem keyword_face (f : Form Label) :
    (face f).shape.keyword? = f.shape.keyword? := by
  cases f <;> rfl

@[simp] theorem string_face (f : Form Label) :
    (face f).shape.string? = f.shape.string? := by
  cases f <;> rfl

@[simp] theorem list_face (f : Form Label) :
    (face f).shape.list?.isSome = f.shape.list?.isSome := by
  cases f with
  | seq l b items => cases b <;> rfl
  | _ => rfl

@[simp] theorem vector_face (f : Form Label) :
    (face f).shape.vector?.isSome = f.shape.vector?.isSome := by
  cases f with
  | seq l b items => cases b <;> rfl
  | _ => rfl

theorem code_face (items : List (Form Label)) :
    (items.map face).filter Form.isSemantic = (items.filter Form.isSemantic).map face := by
  simp [List.filter_map, Function.comp_def]

theorem receivers_face (style : ThreadFirst) (start : Nat) (items : List (Form Label)) :
    receivers style start (items.map face) = receivers style start items := by
  simp [receivers, List.filter_map, Function.comp_def, List.zipIdx_map]

theorem docstring_face (items : List (Form Label)) :
    docstring? (items.map face) = docstring? items := by
  match items with
  | _ :: defined :: rest =>
    have hrest : ((rest.map face).dropWhile Form.isNewline).head?
        = (rest.dropWhile Form.isNewline).head?.map face := by
      simp [List.dropWhile_map, Function.comp_def]
    simp only [List.map_cons, docstring?, symbol_face, hrest]
    cases (rest.dropWhile Form.isNewline).head? with
    | none => rfl
    | some f => simp
  | [] | [_] => rfl

theorem letModifiers_face (items : List (Form Label)) :
    letModifiers (items.map face) = letModifiers items := by
  unfold letModifiers
  rw [code_face]
  generalize items.filter Form.isSemantic = code
  dsimp only
  rw [← List.map_drop, List.zip_map]
  simp [List.filter_map, Function.comp_def]

theorem listsAmong_face (items : List (Form Label)) :
    listsAmong (items.map face) = listsAmong items := by
  simp [listsAmong, List.filter_map, Function.comp_def]

theorem headStyle_face (ctx : Context) (items : List (Form Label)) :
    ctx.headStyle (items.map face) = ctx.headStyle items := by
  cases items with
  | nil => rfl
  | cons head rest => simp [Context.headStyle]

/-! ## 2. The same but for some identities -/

/-- Identities that are the same and none of `S`. -/
def Off (S : List Nat) (i j : Nat) : Prop := i = j ∧ i ∉ S

theorem oneToOne_off : OneToOne (Off S) :=
  ⟨fun h h' => h.1.trans h'.1.symm, fun h h' => h.1.symm.trans h'.1⟩

/-- Forms with none of the identities are twins of themselves. -/
theorem twins_off (h : ∀ i ∈ fs.flatMap Form.ids, i ∉ S) : Twins (Off S) fs fs :=
  ⟨rfl, List.forall₂_same.mpr fun i hi => ⟨rfl, h i hi⟩⟩

/-- Two collections of marks say the same but of `S`. -/
def Marks.SameOff (S : List Nat) (m m' : Marks) : Prop := ∀ i ∉ S, m.SameAt i m'

theorem Marks.sameOff_iff : m.SameOff S m' ↔ Marks.Agree (Off S) m m' := by
  constructor
  · intro h
    constructor
    · rintro i _ ⟨rfl, hi⟩
      exact (h i hi).threaded.symm
    · rintro i _ ⟨rfl, hi⟩
      exact (h i hi).docstrings.symm
  · intro h i hi
    exact ⟨(h.threaded i i ⟨rfl, hi⟩).symm, (h.docstrings i i ⟨rfl, hi⟩).symm⟩

/-- Two collections of decisions say the same of one identity. -/
structure Pending.SameAt (i : Nat) (p q : Pending) : Prop where
  bindings : q.bindings.contains i = p.bindings.contains i
  bodies : q.bodies.contains i = p.bodies.contains i

theorem Pending.SameAt.refl (p : Pending) : p.SameAt i p := ⟨rfl, rfl⟩

theorem Pending.SameAt.symm (h : p.SameAt i q) : q.SameAt i p :=
  ⟨h.bindings.symm, h.bodies.symm⟩

theorem Pending.SameAt.trans {r : Pending} (h : p.SameAt i q) (h' : q.SameAt i r) : p.SameAt i r :=
  ⟨h'.bindings.trans h.bindings, h'.bodies.trans h.bodies⟩

/-- Two collections of decisions say the same but of `S`. -/
def Pending.SameOff (S : List Nat) (p q : Pending) : Prop := ∀ i ∉ S, p.SameAt i q

theorem Pending.sameOff_iff : p.SameOff S q ↔ Pending.Agree (Off S) p q := by
  constructor
  · intro h
    constructor
    · rintro i _ ⟨rfl, hi⟩
      exact (h i hi).bindings.symm
    · rintro i _ ⟨rfl, hi⟩
      exact (h i hi).bodies.symm
  · intro h i hi
    exact ⟨(h.bindings i i ⟨rfl, hi⟩).symm, (h.bodies i i ⟨rfl, hi⟩).symm⟩

/-- The identities below a form. -/
def below (f : Form Label) : List Nat := f.parts.flatMap Form.ids

theorem below_subset (h : g ∈ f.nodes) : ∀ i ∈ below g, i ∈ below f := by
  rcases Form.mem_nodes_iff.mp h with rfl | ⟨k, hk, hg⟩
  · exact fun i hi => hi
  · intro i hi
    have hmem : i ∈ g.ids := g.ids_eq_cons ▸ List.mem_cons_of_mem _ hi
    obtain ⟨e, he, rfl⟩ := List.mem_map.mp hmem
    exact List.mem_flatMap.mpr ⟨k, hk, List.mem_map_of_mem (Form.mem_nodes_trans hg he)⟩

theorem id_notMem_below (h : g ∈ f.nodes) (hnodup : f.ids.Nodup) : f.id ∉ below g := by
  intro hmem
  rw [f.ids_eq_cons, List.nodup_cons] at hnodup
  exact hnodup.1 (below_subset h _ hmem)

/-- What stands beside a form is not below anything in it. -/
theorem disjoint_below {before after : List (Form Label)} (h : f ∈ g.nodes)
    (hnodup : ((before ++ g :: after).flatMap Form.ids).Nodup) :
    (∀ i ∈ before.flatMap Form.ids, i ∉ below f) ∧
      (∀ i ∈ after.flatMap Form.ids, i ∉ below f) ∧ g.ids.Nodup := by
  have hsub : ∀ i ∈ below f, i ∈ g.ids := fun i hi =>
    g.ids_eq_cons ▸ List.mem_cons_of_mem _ (below_subset h i hi)
  rw [List.flatMap_append, List.flatMap_cons, List.nodup_append, List.nodup_append] at hnodup
  obtain ⟨-, ⟨hg, -, hafter⟩, hbefore⟩ := hnodup
  refine ⟨fun i hi hmem => ?_, fun i hi hmem => ?_, hg⟩
  · exact hbefore i hi i (List.mem_append_left _ (hsub i hmem)) rfl
  · exact hafter i (hsub i hmem) i hi rfl

/-! ## 3. Marks -/

/-- A list whose items show the same faces marks the same. -/
theorem addCall_face (l : Label) (b : Bracket) (hitems : items'.map face = items.map face)
    (hself : m.SameAt l.id m') (hi : m.SameAt i m') :
    (m.addCall table (.seq l b items)).SameAt i (m'.addCall table (.seq l b items')) := by
  have hcall : ∀ fs : List (Form Label), (Form.seq l .list fs).call?
      = ((fs.map face).head?.bind fun head => head.shape.symbol?).map fun name => (name, fs) := by
    intro fs
    rw [Form.call?_list]
    cases fs <;> simp
  cases b with
  | list =>
    unfold Marks.addCall
    rw [hcall, hcall, hitems]
    cases (items.map face).head?.bind fun head => head.shape.symbol? with
    | none => exact hi
    | some name =>
      have hreceivers : ∀ style start,
          receivers style start items' = receivers style start items := by
        intro style start
        rw [← receivers_face, hitems, receivers_face]
      have hdoc : docstring? items' = docstring? items := by
        rw [← docstring_face, hitems, docstring_face]
      constructor
      · simp only [Option.map_some]
        split
        · exact hi.threaded
        · rw [Form.note, Form.note, hself.threaded, hreceivers,
            Std.TreeSet.contains_insertMany_list, Std.TreeSet.contains_insertMany_list, hi.threaded]
      · simp only [Option.map_some]
        split
        · rw [hdoc, Std.TreeSet.contains_insertMany_list, Std.TreeSet.contains_insertMany_list,
            hi.docstrings]
        · exact hi.docstrings
  | _ => exact hi

theorem addAll_off (hm : m.SameOff S m') (h : ∀ i ∈ fs.flatMap Form.ids, i ∉ S) :
    (m.addAll table fs).SameOff S (m'.addAll table fs) :=
  Marks.sameOff_iff.mpr (addAll_twins oneToOne_off (Marks.sameOff_iff.mp hm) (twins_off h))

/-- Replacing a form among others changes marks below it only, if that is so in itself. -/
theorem addAll_among {before after : List (Form Label)} (hm : m.SameOff S m')
    (hbefore : ∀ i ∈ before.flatMap Form.ids, i ∉ S)
    (hafter : ∀ i ∈ after.flatMap Form.ids, i ∉ S)
    (hfg : ∀ {m m' : Marks}, m.SameOff S m' → (m.add table f).SameOff S (m'.add table g)) :
    (m.addAll table (before ++ f :: after)).SameOff S (m'.addAll table (before ++ g :: after)) := by
  rw [addAll_append, addAll_append, Marks.addAll, Marks.addAll]
  exact addAll_off (hfg (addAll_off hm hbefore)) hafter

/-- Replacing a form changes marks below it only. -/
theorem add_replaced (hnote : s'.note = s.note) (hhead : s'.shape.head = s.shape.head)
    (hsub : ∀ i ∈ below s, i ∈ below s') (h : Replaces s s' f g) (hnodup : g.ids.Nodup)
    (hm : m.SameOff (below s') m') :
    (m.add table f).SameOff (below s') (m'.add table g) := by
  induction h generalizing m m' with
  | here =>
    intro i hi
    exact (marks_add m _ fun hmem => hi (hsub i hmem)).symm.trans
      ((hm i hi).trans (marks_add m' _ hi))
  | prefixed l p _ ih => exact ih (List.nodup_cons.mp hnodup).2 hm
  | @seq f g l b before after hfg ih =>
    have hself : l.id ∉ below s' :=
      id_notMem_below (Replaces.seq l b before after hfg).mem_nodes hnodup
    rw [Form.ids_seq, List.nodup_cons] at hnodup
    obtain ⟨hbefore, hafter, hg⟩ := disjoint_below hfg.mem_nodes hnodup.2
    have hitems : (before ++ g :: after).map face = (before ++ f :: after).map face := by
      simp [face_eq (hfg.note hnote) (hfg.head hhead)]
    refine addAll_among (fun i hi => ?_) hbefore hafter fun hm => ih hg hm
    exact addCall_face l b hitems (hm _ hself) (hm i hi)

/-! ## 4. Decisions -/

theorem contains_filter_ne (is : List Nat) (k : Nat) :
    (is.filter (· != k)).contains i = (is.contains i && i != k) := by
  rw [Bool.eq_iff_iff, Bool.and_eq_true]
  simp [List.mem_filter]

theorem Pending.not_about_iff : ¬ p.About i ↔
    p.bindings.contains i = false ∧ p.bodies.contains i = false := by
  simp [Pending.About, not_or]

theorem sameAt_merge {c c' : Pending} (hc : c.SameAt i c') (hp : p.SameAt i q) :
    (c.merge p).SameAt i (c'.merge q) := by
  constructor
  · rw [Pending.merge, Pending.merge, List.contains_append, List.contains_append, hc.bindings,
      hp.bindings]
  · rw [Pending.merge, Pending.merge, List.contains_append, List.contains_append, hc.bodies,
      hp.bodies]

/-- A sequence decides about forms below it and uses up what was decided about itself. -/
theorem sameAt_ofSeq {id : Nat} (b : Bracket) (hid : i ≠ id)
    (hitems : i ∉ items.flatMap Form.ids) : p.SameAt i (ofSeq ctx p id b items).2 := by
  cases b with
  | list =>
    have hnot : ¬ (Pending.ofCall (ctx.headStyle items) items).About i :=
      fun h => hitems (about_ofCall _ h)
    have hcall := Pending.not_about_iff.mp hnot
    constructor
    · simp only [ofSeq, ofList, Pending.dropBody, Pending.merge, List.contains_append, hcall.1,
        Bool.false_or]
    · simp only [ofSeq, ofList, Pending.dropBody, Pending.merge, contains_filter_ne,
        List.contains_append, hcall.2, Bool.false_or, bne_iff_ne.mpr hid, Bool.and_true]
  | vector =>
    refine ⟨?_, rfl⟩
    simp only [ofSeq, Pending.dropBindings, contains_filter_ne, bne_iff_ne.mpr hid, Bool.and_true]
  | _ => exact .refl p

mutual

/-- Planning a form leaves alone what is pending about others. -/
theorem sameAt_plan {p : Pending} : ∀ f : Form Label, i ∉ f.ids → p.SameAt i (plan ctx p f).2
  | .atom l x, _ => .refl p
  | .prefixed l s body, h => sameAt_plan body fun hmem => h (List.mem_cons_of_mem _ hmem)
  | .seq l b items, h => by
    rw [Form.ids_seq, List.mem_cons, not_or] at h
    rw [plan_seq]
    exact (sameAt_ofSeq b h.1 h.2).trans (sameAt_planAll items h.2)

theorem sameAt_planAll {p : Pending} :
    ∀ fs : List (Form Label), i ∉ fs.flatMap Form.ids → p.SameAt i (planAll ctx p fs).2
  | [], _ => .refl p
  | f :: fs, h => by
    rw [List.flatMap_cons, List.mem_append, not_or] at h
    rw [planAll_cons]
    exact (sameAt_plan f h.1).trans (sameAt_planAll fs h.2)

end

/-- A list of identities of items does not hold what is below no item. -/
theorem contains_eq_false {is : List Nat} (h : ∀ i ∈ is, ∃ f ∈ fs, f.note.id = i)
    (hi : i ∉ fs.flatMap Form.ids) : is.contains i = false := by
  rw [← Bool.not_eq_true, List.contains_iff_mem]
  intro hmem
  obtain ⟨f, hf, rfl⟩ := h i hmem
  exact hi (mem_ids_of_item hf)

/-- What is decided about the items of one vector and about those of another is the same. -/
structure InnerAlike (S : List Nat) (fs gs : List (Form Label)) : Prop where
  modifiers : ∀ i ∉ S, (letModifiers gs).contains i = (letModifiers fs).contains i
  lists : ∀ i ∉ S, (listsAmong gs).contains i = (listsAmong fs).contains i

theorem InnerAlike.refl (S : List Nat) (fs : List (Form Label)) : InnerAlike S fs fs :=
  ⟨fun _ _ => rfl, fun _ _ => rfl⟩

theorem innerAlike_of_faces (h : gs.map face = fs.map face) : InnerAlike S fs gs := by
  constructor
  · intro i _
    rw [← letModifiers_face gs, h, letModifiers_face]
  · intro i _
    rw [← listsAmong_face gs, h, listsAmong_face]

theorem innerAlike_of_below (hfs : ∀ i ∈ fs.flatMap Form.ids, i ∈ S)
    (hgs : ∀ i ∈ gs.flatMap Form.ids, i ∈ S) : InnerAlike S fs gs := by
  constructor
  · intro i hi
    rw [contains_eq_false (fun _ => exists_of_mem_letModifiers) fun h => hi (hfs i h),
      contains_eq_false (fun _ => exists_of_mem_letModifiers) fun h => hi (hgs i h)]
  · intro i hi
    rw [contains_eq_false (fun _ => exists_of_mem_listsAmong) fun h => hi (hfs i h),
      contains_eq_false (fun _ => exists_of_mem_listsAmong) fun h => hi (hgs i h)]

/-- The items of a vector and of what it becomes. -/
theorem vector_replaced (hnote : s'.note = s.note) (hhead : s'.shape.head = s.shape.head)
    (hsub : ∀ i ∈ below s, i ∈ below s') (h : Replaces s s' f g) :
    Option.Rel (InnerAlike (below s')) f.shape.vector? g.shape.vector? := by
  cases h with
  | here =>
    rcases Form.cases_of_head hhead with ⟨_, _, x, rfl, rfl⟩ | ⟨_, _, p, _, _, rfl, rfl⟩ |
      ⟨_, _, b, items, items', rfl, rfl⟩
    · exact .none
    · exact .none
    · cases b with
      | vector => exact .some (innerAlike_of_below hsub fun i hi => hi)
      | _ => exact .none
  | prefixed l p _ => exact .none
  | seq l b before after hfg =>
    cases b with
    | vector =>
      refine .some (innerAlike_of_faces ?_)
      simp [face_eq (hfg.note hnote) (hfg.head hhead)]
    | _ => exact .none

/-- The first vector of some items and that of what they become. -/
theorem firstVector_replaced {before after : List (Form Label)} (hnote : s'.note = s.note)
    (hhead : s'.shape.head = s.shape.head) (hsub : ∀ i ∈ below s, i ∈ below s')
    (h : Replaces s s' f g) :
    Option.Rel (fun v v' => v.1 = v'.1 ∧ InnerAlike (below s') v.2 v'.2)
      (firstVector? (before ++ f :: after)) (firstVector? (before ++ g :: after)) := by
  have hitems : Forall₂ (fun f g => f = g ∨ Replaces s s' f g) (before ++ f :: after)
      (before ++ g :: after) :=
    List.rel_append (List.forall₂_same.mpr fun _ _ => .inl rfl)
      (.cons (.inr h) (List.forall₂_same.mpr fun _ _ => .inl rfl))
  have hfirst : Option.Rel (fun f g => f = g ∨ Replaces s s' f g)
      (((before ++ f :: after).drop 1).find? Form.isSemantic)
      (((before ++ g :: after).drop 1).find? Form.isSemantic) := by
    have hsemantic : ∀ f g, f = g ∨ Replaces s s' f g → f.isSemantic = g.isSemantic := by
      rintro f g (rfl | hfg)
      · rfl
      · rw [← isSemantic_face g, face_eq (hfg.note hnote) (hfg.head hhead), isSemantic_face]
    have hcode : Forall₂ (fun f g => f = g ∨ Replaces s s' f g)
        ((((before ++ f :: after).drop 1).filter Form.isSemantic).map id)
        ((((before ++ g :: after).drop 1).filter Form.isSemantic).map id) :=
      forall₂_filter_map hsemantic (fun _ _ hfg => hfg) (List.forall₂_drop 1 hitems)
    rw [List.map_id, List.map_id] at hcode
    rw [← List.head?_filter, ← List.head?_filter]
    generalize ((before ++ f :: after).drop 1).filter Form.isSemantic = code at hcode
    generalize ((before ++ g :: after).drop 1).filter Form.isSemantic = code' at hcode
    cases hcode with
    | nil => exact .none
    | cons hfg _ => exact .some hfg
  refine rel_bind hfirst fun k k' hk => ?_
  rcases hk with rfl | hk
  · cases hv : k.shape.vector? with
    | none => exact .none
    | some inner => exact .some ⟨rfl, .refl _ _⟩
  · exact rel_bind (vector_replaced hnote hhead hsub hk) fun inner inner' hinner =>
      .some ⟨congrArg Label.id (hk.note hnote).symm, hinner⟩

/-- What a list decides about the forms below it stays the same, but for those below the form that
is replaced. -/
theorem ofCall_replaced {before after : List (Form Label)} (hnote : s'.note = s.note)
    (hhead : s'.shape.head = s.shape.head) (hsub : ∀ i ∈ below s, i ∈ below s')
    (h : Replaces s s' f g) (style : IndentStyle) :
    (Pending.ofCall style (before ++ f :: after)).SameOff (below s')
      (Pending.ofCall style (before ++ g :: after)) := by
  intro i hi
  have hvector := @firstVector_replaced _ _ _ _ before after hnote hhead hsub h
  have hitems : (before ++ g :: after).map face = (before ++ f :: after).map face := by
    simp [face_eq (h.note hnote) (h.head hhead)]
  generalize before ++ f :: after = items at *
  generalize before ++ g :: after = items' at *
  cases style with
  | letStyle =>
    refine ⟨?_, rfl⟩
    dsimp only [Pending.ofCall]
    generalize firstVector? items = v at hvector
    generalize firstVector? items' = v' at hvector
    cases hvector with
    | none => rfl
    | some hv => simp [hv.1]
  | forStyle =>
    unfold Pending.ofCall
    dsimp only
    generalize firstVector? items = v at hvector
    generalize firstVector? items' = v' at hvector
    cases hvector with
    | none => exact .refl _
    | some hv =>
      refine ⟨?_, rfl⟩
      dsimp only
      rw [List.contains_cons, List.contains_cons, hv.1, hv.2.modifiers i hi]
  | letfn =>
    refine ⟨rfl, ?_⟩
    dsimp only [Pending.ofCall]
    generalize firstVector? items = v at hvector
    generalize firstVector? items' = v' at hvector
    cases hvector with
    | none => rfl
    | some hv => exact hv.2.lists i hi
  | deftype =>
    refine ⟨rfl, ?_⟩
    dsimp only [Pending.ofCall]
    rw [← listsAmong_face (items'.drop 1), List.map_drop, hitems, ← List.map_drop, listsAmong_face]
  | _ => exact .refl _

/-! ## 5. Plans -/

/-- The layout of a list depends on its head, on what is decided about it, and on whether it is
threaded into. -/
theorem ofList_layout {ctx' : Context} {id : Nat}
    (hstyle : ctx'.headStyle items' = ctx.headStyle items)
    (hsymbol : (items'.head?.bind fun head => head.shape.symbol?)
      = items.head?.bind fun head => head.shape.symbol?)
    (hthreaded : ctx'.marks.threaded.contains id = ctx.marks.threaded.contains id)
    (hwaiting : ((Pending.ofCall (ctx.headStyle items) items).merge p).SameAt id
      ((Pending.ofCall (ctx.headStyle items) items').merge q)) :
    (ofList ctx' q id items').1 = (ofList ctx p id items).1 := by
  unfold ofList
  dsimp only
  rw [hstyle, hsymbol, hthreaded, hwaiting.bodies]

/-- The layout of a sequence likewise. -/
theorem ofSeq_layout {ctx' : Context} {id : Nat} (b : Bracket)
    (hstyle : b = .list ∨ b = .fnLiteral → ctx'.headStyle items' = ctx.headStyle items)
    (hsymbol : b = .list → (items'.head?.bind fun head => head.shape.symbol?)
      = items.head?.bind fun head => head.shape.symbol?)
    (hthreaded : ctx'.marks.threaded.contains id = ctx.marks.threaded.contains id)
    (hcall : b = .list → (Pending.ofCall (ctx.headStyle items) items).SameAt id
      (Pending.ofCall (ctx.headStyle items) items'))
    (hp : p.SameAt id q) : (ofSeq ctx' q id b items').1 = (ofSeq ctx p id b items).1 := by
  cases b with
  | list =>
    exact ofList_layout (hstyle (.inl rfl)) (hsymbol rfl) hthreaded (sameAt_merge (hcall rfl) hp)
  | fnLiteral => exact congrArg ofStyle (hstyle (.inr rfl))
  | vector =>
    simp only [ofSeq]
    rw [hp.bindings]
  | _ => rfl

/-- What is pending behind the opening delimiter of a sequence likewise. -/
theorem ofSeq_pending {ctx' : Context} {id : Nat} (b : Bracket)
    (hstyle : b = .list → ctx'.headStyle items' = ctx.headStyle items)
    (hcall : b = .list → (Pending.ofCall (ctx.headStyle items) items).SameAt i
      (Pending.ofCall (ctx.headStyle items) items'))
    (hp : p.SameAt i q) : (ofSeq ctx p id b items).2.SameAt i (ofSeq ctx' q id b items').2 := by
  cases b with
  | list =>
    have hwaiting := sameAt_merge (hcall rfl) hp
    constructor
    · simp only [ofSeq, ofList, Pending.dropBody, hstyle rfl, hwaiting.bindings]
    · simp only [ofSeq, ofList, Pending.dropBody, hstyle rfl, contains_filter_ne, hwaiting.bodies]
  | vector =>
    refine ⟨?_, hp.bodies⟩
    simp only [ofSeq, Pending.dropBindings, contains_filter_ne, hp.bindings]
  | _ => exact hp

/-- What is pending behind twins is about forms that correspond. -/
theorem pending_twins {I : Nat → Nat → Prop} {ctx' : Context} (hI : OneToOne I)
    (hctx : Context.Agree I ctx ctx') (hp : Pending.Agree I p q) (h : Twins I fs gs) :
    Pending.Agree I (planAll ctx p fs).2 (planAll ctx' q gs).2 := by
  have hsame : Context.Agree Eq ctx' ctx' := ⟨rfl, rfl, agree_eq _, agree_eq _⟩
  have hself : Pending.Agree Eq q q := ⟨agree_eq _, agree_eq _⟩
  have hfs := (planAll_copy hI hctx hp (copyAll_withBreaks false h)).2
  have hgs := (planAll_copy oneToOne_eq hsame hself (copyAll_withBreaks false (.refl gs))).2
  exact ⟨fun i j hij => (hfs.bindings i j hij).trans (hgs.bindings j j rfl).symm,
    fun i j hij => (hfs.bodies i j hij).trans (hgs.bodies j j rfl).symm⟩

/-- Forms with none of the identities are planned the same. -/
theorem planAll_off (hm : ctx.marks.SameOff S m') (hp : p.SameOff S q)
    (h : ∀ i ∈ fs.flatMap Form.ids, i ∉ S) :
    (planAll { ctx with marks := m' } q fs).1 = (planAll ctx p fs).1 ∧
      (planAll ctx p fs).2.SameOff S (planAll { ctx with marks := m' } q fs).2 := by
  have hmarks := Marks.sameOff_iff.mp hm
  have hpending := Pending.sameOff_iff.mp hp
  have hctx : Context.Agree (Off S) ctx { ctx with marks := m' } := ⟨rfl, rfl, hmarks⟩
  exact ⟨(planAll_twins oneToOne_off hctx.style hmarks hpending (twins_off h)).symm,
    Pending.sameOff_iff.mpr (pending_twins oneToOne_off hctx hpending (twins_off h))⟩

/-- Where a form among others is replaced, the others are planned the same. -/
theorem planAll_among {before after : List (Form Label)} (hm : ctx.marks.SameOff S m')
    (hp : p.SameOff S q) (hbefore : ∀ i ∈ before.flatMap Form.ids, i ∉ S)
    (hafter : ∀ i ∈ after.flatMap Form.ids, i ∉ S)
    (hfg : ∀ {p q}, p.SameOff S q →
      (plan ctx p f).2.SameOff S (plan { ctx with marks := m' } q g).2) :
    ∃ p₁ q₁ front back, p₁.SameOff S q₁ ∧
      (planAll ctx p (before ++ f :: after)).1 = front ++ (plan ctx p₁ f).1 :: back ∧
      (planAll { ctx with marks := m' } q (before ++ g :: after)).1
        = front ++ (plan { ctx with marks := m' } q₁ g).1 :: back ∧
      (planAll ctx p (before ++ f :: after)).2.SameOff S
        (planAll { ctx with marks := m' } q (before ++ g :: after)).2 := by
  obtain ⟨hfront, hmiddle⟩ := planAll_off hm hp hbefore
  obtain ⟨hback, hend⟩ := planAll_off hm (hfg hmiddle) hafter
  refine ⟨_, _, (planAll ctx p before).1,
    (planAll ctx (plan ctx (planAll ctx p before).2 f).2 after).1, hmiddle, ?_, ?_, ?_⟩
  · rw [planAll_append, planAll_cons]
  · rw [planAll_append, planAll_cons, hfront, hback]
  · rw [planAll_append, planAll_append, planAll_cons, planAll_cons]
    exact hend

/-- The style of a list depends on what its first item is. -/
theorem headStyle_bare {α β : Type} {items : List (Form α)} {items' : List (Form β)}
    (h : items'.head?.map Form.bare = items.head?.map Form.bare) :
    ctx.headStyle items' = ctx.headStyle items := by
  match items, items' with
  | [], [] => rfl
  | [], _ :: _ | _ :: _, [] => simp at h
  | f :: _, g :: _ =>
    have hbare : g.bare = f.bare := by simpa using h
    have hkeyword : g.shape.keyword? = f.shape.keyword? := by
      rw [← Form.keyword_bare, hbare, Form.keyword_bare]
    have hsymbol : g.shape.symbol? = f.shape.symbol? := by
      rw [← Form.symbol_bare, hbare, Form.symbol_bare]
    simp only [Context.headStyle, hkeyword, hsymbol]

/-- If the items of a list change but for the first, its layout stays the same, and so does what is
pending about forms besides. -/
theorem ofSeq_inside {l : Label} {b : Bracket}
    (hm : ctx.marks.SameOff (below (.seq l b items')) m')
    (hhead : b = .list ∨ b = .fnLiteral → items'.head?.map Form.bare = items.head?.map Form.bare)
    (hsub : ∀ i ∈ items.flatMap Form.ids, i ∈ items'.flatMap Form.ids)
    (hid : l.id ∉ below (.seq l b items')) (hp : p.SameOff (below (.seq l b items')) q) :
    (ofSeq { ctx with marks := m' } q l.id b items').1 = (ofSeq ctx p l.id b items).1 ∧
      (ofSeq ctx p l.id b items).2.SameOff (below (.seq l b items'))
        (ofSeq { ctx with marks := m' } q l.id b items').2 := by
  have hstyle : b = .list ∨ b = .fnLiteral →
      Context.headStyle { ctx with marks := m' } items' = ctx.headStyle items := fun hb =>
    (headStyle_congr (fun _ => rfl) items').trans (headStyle_bare (hhead hb))
  have hsymbol : b = .list → (items'.head?.bind fun head => head.shape.symbol?)
      = items.head?.bind fun head => head.shape.symbol? := by
    intro hb
    have hbare := congrArg (Option.bind · fun head => head.shape.symbol?) (hhead (.inl hb))
    simpa [Option.bind_map, Function.comp_def] using hbare
  have hcall : ∀ i ∉ below (.seq l b items'),
      (Pending.ofCall (ctx.headStyle items) items).SameAt i
        (Pending.ofCall (ctx.headStyle items) items') := by
    intro i hi
    have hnone := Pending.not_about_iff.mp fun h =>
      hi (hsub i (@about_ofCall i items (ctx.headStyle items) h))
    have hnone' := Pending.not_about_iff.mp fun h =>
      hi (@about_ofCall i items' (ctx.headStyle items) h)
    exact ⟨hnone'.1.trans hnone.1.symm, hnone'.2.trans hnone.2.symm⟩
  exact ⟨ofSeq_layout b hstyle hsymbol (hm _ hid).threaded (fun _ => hcall _ hid) (hp _ hid),
    fun i hi => ofSeq_pending b (fun hb => hstyle (.inl hb)) (fun _ => hcall i hi) (hp i hi)⟩

/-- A sequence with other items among or behind its first: the sequence is laid out alike, and all
around it is planned the same. -/
theorem plan_replaced {l : Label} {b : Bracket}
    (hm : ctx.marks.SameOff (below (.seq l b items')) m')
    (hhead : b = .list ∨ b = .fnLiteral → items'.head?.map Form.bare = items.head?.map Form.bare)
    (hsub : ∀ i ∈ items.flatMap Form.ids, i ∈ items'.flatMap Form.ids)
    (h : Replaces (.seq l b items) (.seq l b items') f g) (hnodup : g.ids.Nodup)
    (hp : p.SameOff (below (.seq l b items')) q) :
    (∃ r fs gs, fs.map Form.bare = items.map Form.bare ∧ gs.map Form.bare = items'.map Form.bare ∧
      Replaces (.seq { layout := (ofSeq ctx r l.id b items).1 } b fs)
        (.seq { layout := (ofSeq ctx r l.id b items).1 } b gs) (plan ctx p f).1
        (plan { ctx with marks := m' } q g).1) ∧
      (plan ctx p f).2.SameOff (below (.seq l b items'))
        (plan { ctx with marks := m' } q g).2 := by
  induction h generalizing p q with
  | here =>
    have hid : l.id ∉ below (.seq l b items') := id_notMem_below (Form.self_mem_nodes _) hnodup
    obtain ⟨hlayout, hpending⟩ := ofSeq_inside hm hhead hsub hid hp
    rw [plan_seq, plan_seq]
    dsimp only
    rw [hlayout]
    refine ⟨⟨p, _, _, bare_planAll _ items, bare_planAll _ items', .here⟩, fun i hi => ?_⟩
    have hitems := @sameAt_planAll ctx i (ofSeq ctx p l.id b items).2 items
      fun hmem => hi (hsub i hmem)
    exact hitems.symm.trans ((hpending i hi).trans (sameAt_planAll items' hi))
  | prefixed note s _ ih =>
    obtain ⟨⟨r, fs, gs, hfs, hgs, hplan⟩, hpending⟩ := ih (List.nodup_cons.mp hnodup).2 hp
    rw [plan_prefixed, plan_prefixed]
    exact ⟨⟨r, fs, gs, hfs, hgs, .prefixed {} s hplan⟩, hpending⟩
  | @seq f g note c before after hfg ih =>
    have hnote : (Form.seq l b items').note = (Form.seq l b items).note := rfl
    have hshape : (Form.seq l b items').shape.head = (Form.seq l b items).shape.head := rfl
    have hid : note.id ∉ below (.seq l b items') :=
      id_notMem_below (Replaces.seq note c before after hfg).mem_nodes hnodup
    rw [Form.ids_seq, List.nodup_cons] at hnodup
    obtain ⟨hbefore, hafter, hg⟩ := disjoint_below hfg.mem_nodes hnodup.2
    have hfaces : (before ++ g :: after).map face = (before ++ f :: after).map face := by
      simp [face_eq (hfg.note hnote) (hfg.head hshape)]
    have hstyle : Context.headStyle { ctx with marks := m' } (before ++ g :: after)
        = ctx.headStyle (before ++ f :: after) := by
      rw [← headStyle_face ctx, ← hfaces, headStyle_face]
      exact headStyle_congr (fun _ => rfl) _
    have hsymbol : ((before ++ g :: after).head?.bind fun head => head.shape.symbol?)
        = (before ++ f :: after).head?.bind fun head => head.shape.symbol? := by
      have hheads := congrArg (fun fs => fs.head?.bind fun head => head.shape.symbol?) hfaces
      simpa [Option.bind_map, Function.comp_def] using hheads
    have hcall := @ofCall_replaced _ _ _ _ before after hnote hshape hsub hfg
      (ctx.headStyle (before ++ f :: after))
    have hlayout := ofSeq_layout c (fun _ => hstyle) (fun _ => hsymbol) (hm _ hid).threaded
      (fun _ => hcall _ hid) (hp _ hid)
    have hwaiting : (ofSeq ctx p note.id c (before ++ f :: after)).2.SameOff
        (below (.seq l b items')) (ofSeq { ctx with marks := m' } q note.id c _).2 := fun i hi =>
      ofSeq_pending c (fun _ => hstyle) (fun _ => hcall i hi) (hp i hi)
    obtain ⟨p₁, q₁, front, back, hmiddle, hplan, hplan', hend⟩ :=
      planAll_among hm hwaiting hbefore hafter fun h => (ih hg h).2
    obtain ⟨r, fs, gs, hfs, hgs, hinside⟩ := (ih hg hmiddle).1
    rw [plan_seq, plan_seq]
    refine ⟨⟨r, fs, gs, hfs, hgs, ?_⟩, hend⟩
    dsimp only
    rw [hplan, hplan', hlayout]
    exact .seq _ c front back hinside

/-! ## 6. Sources -/

/-- Symbols have the same styles in both sources. -/
def SameStyles (table : IndentTable) (roots roots' : List (Form Label)) : Prop :=
  ∀ sym, (Context.ofRoots table roots').style? sym = (Context.ofRoots table roots).style? sym

/-- The same forms with other labels are planned the same. -/
theorem planned_twins {roots roots' : List (Form Label)} (hnodup : (roots.flatMap Form.ids).Nodup)
    (hnodup' : (roots'.flatMap Form.ids).Nodup) (h : roots.map Form.bare = roots'.map Form.bare)
    (table : IndentTable) :
    planned table roots' = planned table roots ∧ SameStyles table roots roots' := by
  obtain ⟨hI, htwins, hmarks⟩ := marks_paired hnodup hnodup' h table
  have haliases : Aliases.ofRoots roots' = Aliases.ofRoots roots :=
    (aliases_copy (copyAll_withBreaks false (.refl roots'))).symm.trans
      (aliases_copy (copyAll_withBreaks false htwins))
  have hctx : Context.Agree (Paired (roots.flatMap Form.ids) (roots'.flatMap Form.ids))
      (Context.ofRoots table roots) (Context.ofRoots table roots') := ⟨rfl, haliases, hmarks⟩
  exact ⟨(planAll_twins hI hctx.style hmarks .empty htwins).symm, hctx.style⟩

/-- A sequence that is laid out in pairs behind its head does not begin with a line break. -/
theorem head_of_cond {id leading : Nat} {b : Bracket} {arrows : Bool}
    (h : (ofSeq ctx p id b items).1 = .cond leading arrows) :
    ∀ f ∈ items.head?, f.isNewline = false := by
  intro f hf
  match items, hf with
  | f :: rest, rfl =>
    cases hnewline : f.isNewline with
    | false => rfl
    | true =>
      rcases ofSeq_of_newline ctx hnewline p id b rest with hbody | hdeepens
      · simp [hbody] at h
      · simp [h, deepens] at hdeepens

/-- Of two sources that differ in the items of one sequence the first can be given the labels of the
second around and in the sequence. Then the marks are the same but for what is below it. -/
theorem relabel {roots roots' : List (Form Label)} {b : Bracket} {xs ys : List (Form Unit)}
    (hnodup' : (roots'.flatMap Form.ids).Nodup)
    (h : ReplacesAmong (.seq () b xs) (.seq () b ys) (roots.map Form.bare) (roots'.map Form.bare))
    (hsub : xs.Sublist ys) (table : IndentTable) :
    ∃ l items items' before after f g, items.map Form.bare = xs ∧ items'.map Form.bare = ys ∧
      items.Sublist items' ∧ roots' = before ++ g :: after ∧
      (before ++ f :: after).map Form.bare = roots.map Form.bare ∧
      ((before ++ f :: after).flatMap Form.ids).Nodup ∧
      Replaces (.seq l b items) (.seq l b items') f g ∧
      (Context.ofRoots table (before ++ f :: after)).marks.SameOff (below (.seq l b items'))
        (Context.ofRoots table (before ++ g :: after)).marks := by
  obtain ⟨t', ht', hlift⟩ := h.lift (rfl : roots'.map Form.bare = _)
  match t', ht' with
  | .seq l b items', ht' =>
    obtain ⟨rfl, rfl⟩ : b = _ ∧ items'.map Form.bare = ys := by simpa using ht'
    obtain ⟨items, hitems, rfl⟩ := List.sublist_map_iff.mp hsub
    obtain ⟨roots₀, hroots₀, before, f, g, after, rfl, rfl, hfg⟩ := hlift (.seq l b items) (by simp)
    have hids : (Form.seq l b items).ids.Sublist (Form.seq l b items').ids := by
      rw [Form.ids_seq, Form.ids_seq]
      exact (hitems.flatMap Form.ids).cons_cons _
    have hnodup₀ : ((before ++ f :: after).flatMap Form.ids).Nodup := by
      refine hnodup'.sublist ?_
      simp only [List.flatMap_append, List.flatMap_cons]
      exact ((hfg.ids hids).append_right _).append_left _
    obtain ⟨hbefore, hafter, hg⟩ := disjoint_below hfg.mem_nodes hnodup'
    have hsub : ∀ i ∈ items.flatMap Form.ids, i ∈ items'.flatMap Form.ids :=
      (hitems.flatMap Form.ids).subset
    exact ⟨l, items, items', before, after, f, g, rfl, rfl, hitems, rfl, hroots₀, hnodup₀, hfg,
      addAll_among (fun i _ => .refl {}) hbefore hafter fun hm =>
        add_replaced (s := .seq l b items) rfl rfl hsub hfg hg hm⟩

/-- Two sources that differ in the items of one sequence are planned alike but for these items, if
symbols keep their styles. What begins with a line break is not laid out in pairs behind a head. -/
theorem planned_replaced {roots roots' : List (Form Label)} {b : Bracket} {xs ys : List (Form Unit)}
    (hnodup : (roots.flatMap Form.ids).Nodup) (hnodup' : (roots'.flatMap Form.ids).Nodup)
    (h : ReplacesAmong (.seq () b xs) (.seq () b ys) (roots.map Form.bare) (roots'.map Form.bare))
    (hsub : xs.Sublist ys) (hhead : b = .list ∨ b = .fnLiteral → ys.head? = xs.head?)
    (hstyle : SameStyles table roots roots') :
    ∃ layout fs gs, fs.map Form.bare = xs ∧ gs.map Form.bare = ys ∧
      (∀ leading arrows, layout = .cond leading arrows → ∀ f ∈ fs.head?, f.isNewline = false) ∧
      ReplacesAmong (.seq { layout } b fs) (.seq { layout } b gs) (planned table roots)
        (planned table roots') := by
  obtain ⟨l, items, items', before, after, f, g, rfl, rfl, hitems, rfl, hroots₀, hnodup₀, hfg, hm⟩
    := relabel hnodup' h hsub table
  obtain ⟨hplanned, hstyle₀⟩ := planned_twins hnodup hnodup₀ hroots₀.symm table
  obtain ⟨hbefore, hafter, hg⟩ := disjoint_below hfg.mem_nodes hnodup'
  have hsub : ∀ i ∈ items.flatMap Form.ids, i ∈ items'.flatMap Form.ids :=
    (hitems.flatMap Form.ids).subset
  let ctx := Context.ofRoots table (before ++ f :: after)
  let ctx' := Context.ofRoots table (before ++ g :: after)
  have hctx : ∀ sym, ctx'.style? sym = Context.style? { ctx with marks := ctx'.marks } sym :=
    fun sym => (hstyle sym).trans (hstyle₀ sym).symm
  have hheads : b = .list ∨ b = .fnLiteral →
      items'.head?.map Form.bare = items.head?.map Form.bare := by
    simpa only [List.head?_map] using hhead
  obtain ⟨p, q, front, back, hpq, hplan, hplan', -⟩ := planAll_among hm (p := {}) (q := {})
    (fun i _ => .refl {}) hbefore hafter fun h => (plan_replaced hm hheads hsub hfg hg h).2
  obtain ⟨⟨r, fs, gs, hfs, hgs, hinside⟩, -⟩ := plan_replaced hm hheads hsub hfg hg hpq
  refine ⟨_, fs, gs, hfs, hgs, ?_, front, _, _, back, ?_, ?_, hinside⟩
  · intro leading arrows hlayout f hf
    have hbare := congrArg List.head? hfs
    rw [List.head?_map, List.head?_map, hf, Option.map_some] at hbare
    obtain ⟨head, hhead, hsame⟩ := Option.map_eq_some_iff.mp hbare.symm
    rw [← Form.isNewline_bare, ← hsame, Form.isNewline_bare]
    exact head_of_cond hlayout head hhead
  · rw [← hplanned]
    exact hplan
  · rw [← hplan']
    exact congrArg Prod.fst (planAll_congr hctx rfl {} (before ++ g :: after))

end CljFormat.Layout
