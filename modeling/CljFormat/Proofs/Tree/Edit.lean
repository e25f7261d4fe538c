/-
CljFormat.Proofs.Tree.Edit — what an edit of a tree does to the forms that it holds.

Replacing the parts of a sequence by some of its items is accepted, gives the form with these items,
and touches no other node (`holds_setChildren`). From there it goes up: `EditsAs edit E` says that
an edit of a node does to the tree what `E` does to a form. Editing neighbouring forms one after
another edits each as if it were alone, since they share no node (`foldlM_edits`), and so an edit
that goes down through a tree does what the same recursion does to a form (`editBelow_edits`).
-/
import CljFormat.Proofs.Tree.Holds
import CljFormat.Tree.Rearrange
import Mathlib.Data.List.Nodup

namespace CljFormat

/-- A form with `g` applied to each of its parts. -/
def Form.mapParts {α : Type} (g : Form α → Form α) : Form α → Form α
  | .atom l x => .atom l x
  | .prefixed l s body => .prefixed l s (g body)
  | .seq l b items => .seq l b (items.map g)

namespace Form

@[simp] theorem parts_mapParts {α : Type} (g : Form α → Form α) (f : Form α) :
    (f.mapParts g).parts = f.parts.map g := by
  cases f <;> rfl

@[simp] theorem id_mapParts (g : Form Label → Form Label) (f : Form Label) :
    (f.mapParts g).id = f.id := by
  cases f <;> rfl

theorem length_ids_eq_succ (f : Form Label) :
    f.ids.length = (f.parts.flatMap ids).length + 1 := by
  rw [ids_eq_cons, List.length_cons]

theorem ids_mapParts (g : Form Label → Form Label) (f : Form Label) :
    (f.mapParts g).ids = f.id :: (f.parts.map g).flatMap ids := by
  rw [ids_eq_cons, id_mapParts, parts_mapParts]

end Form

namespace Tree

variable {t t' : Tree} {parent : Option NodeId} {f : Form Label} {fs : List (Form Label)}
  {is : List NodeId}

/-! ## 1. Trees that differ in few nodes -/

/-- Two trees differ in the nodes `is` only. -/
structure SameOutside (is : List NodeId) (t t' : Tree) : Prop where
  nodes : ∀ i, i ∉ is → t'.nodes[i]? = t.nodes[i]?
  size : t'.size = t.size
  roots : t'.roots = t.roots

theorem SameOutside.refl (is : List NodeId) (t : Tree) : SameOutside is t t :=
  ⟨fun _ _ => rfl, rfl, rfl⟩

theorem SameOutside.trans {t'' : Tree} (h : SameOutside is t t') (h' : SameOutside is t' t'') :
    SameOutside is t t'' :=
  ⟨fun i hi => (h'.nodes i hi).trans (h.nodes i hi), h'.size.trans h.size,
    h'.roots.trans h.roots⟩

theorem SameOutside.mono {js : List NodeId} (h : SameOutside is t t') (hsub : is ⊆ js) :
    SameOutside js t t' :=
  ⟨fun i hi => h.nodes i fun hmem => hi (hsub hmem), h.size, h.roots⟩

/-- A form that shares no node with those that are changed is still held. -/
theorem SameOutside.holds (h : SameOutside is t t') (hf : t.Holds parent f)
    (hdisjoint : List.Disjoint f.ids is) : t'.Holds parent f :=
  hf.congr fun i hi => h.nodes i (hdisjoint hi)

/-- The identities of a form are different if it is a part of a form whose parts' are. -/
theorem nodup_of_mem_parts {g : Form Label} (hg : g ∈ fs) (h : (fs.flatMap Form.ids).Nodup) :
    g.ids.Nodup :=
  h.sublist (List.sublist_flatten_of_mem (List.mem_map_of_mem hg))

theorem nodup_of_mem_nodes {g : Form Label} (hg : g ∈ f.nodes) (h : f.ids.Nodup) : g.ids.Nodup := by
  induction f using Form.inductParts with
  | step f ih =>
    rcases Form.mem_nodes_iff.mp hg with rfl | ⟨k, hk, hg⟩
    · exact h
    · rw [f.ids_eq_cons, List.nodup_cons] at h
      exact ih k hk hg (nodup_of_mem_parts hk h.2)

/-- No two parts of a form have the same identity. -/
theorem nodup_id_parts (h : f.ids.Nodup) : (f.parts.map Form.id).Nodup := by
  rw [f.ids_eq_cons, List.nodup_cons] at h
  have hdisjoint := (List.nodup_flatMap.mp h.2).2
  refine List.pairwise_map.mpr (hdisjoint.imp fun {g k} hgk hid => ?_)
  exact hgk g.id_mem_ids (hid ▸ k.id_mem_ids)

theorem nodup_of_subperm {js : List NodeId} (h : List.Subperm is js) (hjs : js.Nodup) :
    is.Nodup := by
  obtain ⟨ks, hperm, hsub⟩ := h
  exact hperm.nodup_iff.mp (hjs.sublist hsub)

/-- A form with other parts is held if its node is the same and these parts are held. -/
theorem holds_mapParts {g : Form Label → Form Label} (hid : ∀ f, (g f).id = f.id)
    (hnode : t.nodes[f.id]? = some (f.node parent))
    (hparts : ∀ p ∈ f.parts, t.Holds (some f.id) (g p)) : t.Holds parent (f.mapParts g) := by
  have hsame : (f.mapParts g).node parent = f.node parent := by
    cases f with
    | atom l x => rfl
    | prefixed l s body => simp [Form.node, Form.mapParts, Form.shape, Shape.map, Form.note, hid]
    | seq l b items =>
      simp [Form.node, Form.mapParts, Form.shape, Shape.map, Form.note, Function.comp_def, hid]
  rw [holds_iff, Form.id_mapParts, Form.parts_mapParts, hsame, List.forall_mem_map]
  exact ⟨hnode, hparts⟩

/-! ## 2. One replacement -/

/-- Giving nodes a parent changes their parents and nothing else. -/
theorem getElem?_setParents (i : NodeId) :
    (t.setParents parent is).nodes[i]?
      = if i ∈ is then t.nodes[i]?.map ({ · with parent }) else t.nodes[i]? := by
  unfold setParents
  dsimp only
  generalize t.nodes = nodes
  induction is generalizing nodes with
  | nil => rfl
  | cons j is ih =>
    rw [List.foldl_cons, ih, Std.TreeMap.getElem?_modify]
    by_cases hij : j = i
    · subst hij
      cases nodes[j]? <;> simp
    · have hcmp : compare j i ≠ .eq := fun h => hij (Nat.compare_eq_eq.mp h)
      have hji : i ≠ j := fun h => hij h.symm
      simp [hcmp, hji]

/-- A tree with another node under the identity `i`. -/
def withNode (t : Tree) (i : NodeId) (node : Node) : Tree :=
  { t with nodes := t.nodes.insert i node }

theorem getElem?_withNode (i j : NodeId) (node : Node) :
    (t.withNode i node).nodes[j]? = if i = j then some node else t.nodes[j]? := by
  rw [withNode, Std.TreeMap.getElem?_insert]
  simp only [Nat.compare_eq_eq]

/-- The parts of a sequence can be replaced. -/
theorem setChildren_seq {i : NodeId} {pos : Position} {b : Bracket} {before : List NodeId}
    (h : t.nodes[i]? = some ⟨pos, .seq b before, parent⟩) :
    t.setChildren i is
      = .ok ((t.withNode i ⟨pos, .seq b is, parent⟩).setParents (some i) is) := by
  rw [setChildren, h]
  rfl

/-- A sequence takes some of its items as its parts, and no other node is touched. -/
theorem holds_setChildren {l : Label} {b : Bracket} {items items' : List (Form Label)}
    (h : t.Holds parent (.seq l b items)) (hnodup : (Form.seq l b items).ids.Nodup)
    (hsub : items' ⊆ items) :
    ∃ t', t.setChildren l.id (items'.map Form.id) = .ok t' ∧ t'.Holds parent (.seq l b items') ∧
      SameOutside [l.id] t t' := by
  rw [Form.ids_seq, List.nodup_cons] at hnodup
  have hparts : ∀ g ∈ items', l.id ∉ g.ids := fun g hg hmem =>
    hnodup.1 (List.mem_flatMap.mpr ⟨g, hsub hg, hmem⟩)
  refine ⟨_, setChildren_seq h.node, ?_⟩
  generalize htree : (t.withNode l.id _).setParents (some l.id) (items'.map Form.id) = t'
  have hself : t'.nodes[l.id]? = some ⟨l.pos, .seq b (items'.map Form.id), parent⟩ := by
    have hmem : l.id ∉ items'.map Form.id := by
      intro hmem
      obtain ⟨g, hg, hid⟩ := List.mem_map.mp hmem
      exact hparts g hg (hid ▸ g.id_mem_ids)
    rw [← htree, getElem?_setParents, if_neg hmem, getElem?_withNode, if_pos rfl]
    rfl
  -- The items are parts of the sequence already, so their parents stay.
  have hothers : ∀ i, i ≠ l.id → t'.nodes[i]? = t.nodes[i]? := by
    intro i hi
    have hne : l.id ≠ i := fun h => hi h.symm
    rw [← htree, getElem?_setParents, getElem?_withNode, if_neg hne]
    split
    · next hmem =>
      obtain ⟨g, hg, rfl⟩ := List.mem_map.mp hmem
      rw [(h.part (hsub hg)).node]
      rfl
    · rfl
  have hsame : SameOutside [l.id] t t' :=
    ⟨fun i hi => hothers i fun h => hi (List.mem_singleton.mpr h), by rw [← htree]; rfl,
      by rw [← htree]; rfl⟩
  refine ⟨holds_iff.mpr ⟨hself, fun g hg => ?_⟩, hsame⟩
  refine hsame.holds (h.part (hsub hg)) fun i hi hmem => ?_
  obtain rfl := List.mem_singleton.mp hmem
  exact hparts g hg hi

/-! ## 3. Edits of nodes and functions on forms -/

/-- Editing the node of a form does to the tree what `E` does to the form, and touches the nodes of
the form only. -/
def EditsAs (edit : Tree → NodeId → Except EditError Tree) (E : Form Label → Form Label) : Prop :=
  ∀ ⦃t parent f⦄, t.Holds parent f → f.ids.Nodup → f.ids.length ≤ t.size →
    ∃ t', edit t f.id = .ok t' ∧ t'.Holds parent (E f) ∧ SameOutside f.ids t t'

/-- A function on forms that keeps the identity of a form and takes no form from elsewhere. -/
structure Prunes (E : Form Label → Form Label) : Prop where
  id : ∀ f, (E f).id = f.id
  ids : ∀ f, List.Subperm (E f).ids f.ids

theorem foldlM_cons_ok {β : Type} {edit : Tree → β → Except EditError Tree} {x : β}
    (xs : List β) (h : edit t x = .ok t') : (x :: xs).foldlM edit t = xs.foldlM edit t' := by
  rw [List.foldlM_cons, h]
  rfl

/-- Neighbouring forms are edited one after another as each would be alone. -/
theorem foldlM_edits {edit : Tree → NodeId → Except EditError Tree} {E : Form Label → Form Label}
    {n : Nat}
    (hedit : ∀ f ∈ fs, ∀ t : Tree, t.size = n → t.Holds parent f →
      ∃ t', edit t f.id = .ok t' ∧ t'.Holds parent (E f) ∧ SameOutside f.ids t t')
    (hprunes : Prunes E) (hnodup : (fs.flatMap Form.ids).Nodup) (hsize : t.size = n)
    (hfs : ∀ f ∈ fs, t.Holds parent f) :
    ∃ t', (fs.map Form.id).foldlM edit t = .ok t' ∧ (∀ f ∈ fs, t'.Holds parent (E f)) ∧
      SameOutside (fs.flatMap Form.ids) t t' := by
  induction fs generalizing t with
  | nil => exact ⟨t, rfl, by simp, .refl _ t⟩
  | cons f rest ih =>
    rw [List.flatMap_cons, List.nodup_append'] at hnodup
    obtain ⟨-, hrest, hdisjoint⟩ := hnodup
    obtain ⟨t₁, hfirst, hheld, hsame⟩ :=
      hedit f List.mem_cons_self t hsize (hfs f List.mem_cons_self)
    have hothers : ∀ g ∈ rest, t₁.Holds parent g := by
      intro g hg
      refine hsame.holds (hfs g (List.mem_cons_of_mem _ hg)) fun i hi hmem => ?_
      exact hdisjoint hmem (List.mem_flatMap.mpr ⟨g, hg, hi⟩)
    obtain ⟨t', hlater, hheldAll, hsameAll⟩ :=
      ih (fun g hg => hedit g (List.mem_cons_of_mem _ hg)) hrest (hsame.size.trans hsize) hothers
    refine ⟨t', (foldlM_cons_ok _ hfirst).trans hlater, ?_, ?_⟩
    · rw [List.forall_mem_cons]
      refine ⟨hsameAll.holds hheld fun i hi hmem => ?_, hheldAll⟩
      exact hdisjoint ((hprunes.ids f).subset hi) hmem
    · rw [List.flatMap_cons]
      exact (hsame.mono (List.subset_append_left _ _)).trans
        (hsameAll.mono (List.subset_append_right _ _))

/-! ## 4. Edits that go down -/

theorem length_ids_of_mem {g : Form Label} {n : Nat} (hg : g ∈ f.parts)
    (h : f.ids.length ≤ n + 1) : g.ids.length ≤ n := by
  have hlength : g.ids.length ≤ (f.parts.flatMap Form.ids).length :=
    (List.sublist_flatten_of_mem (List.mem_map_of_mem hg)).length_le
  rw [f.ids_eq_cons, List.length_cons] at h
  omega

variable {edit : Tree → NodeId → Except EditError Tree} {E T : Form Label → Form Label}

/-- What is pruned form by form is pruned as a whole. -/
theorem subperm_flatMap_map (h : ∀ f ∈ fs, List.Subperm (T f).ids f.ids) :
    List.Subperm ((fs.map T).flatMap Form.ids) (fs.flatMap Form.ids) := by
  induction fs with
  | nil => exact .refl _
  | cons f rest ih =>
    rw [List.forall_mem_cons] at h
    exact h.1.append (ih h.2)

/-- A recursion that prunes each form on its way prunes the form as a whole. -/
theorem Prunes.mapParts (hE : Prunes E) (hT : ∀ f, T f = (E f).mapParts T) : Prunes T := by
  refine ⟨fun f => by rw [hT, Form.id_mapParts, hE.id], fun f => ?_⟩
  induction hn : f.ids.length using Nat.strongRecOn generalizing f with
  | ind n ih =>
    subst hn
    have hpart : ∀ g ∈ (E f).parts, List.Subperm (T g).ids g.ids := by
      intro g hg
      have hless : g.ids.length < f.ids.length := by
        have hle := (hE.ids f).length_le
        have hpart := length_ids_of_mem hg (Nat.le_of_eq (E f).length_ids_eq_succ)
        rw [(E f).length_ids_eq_succ] at hle
        omega
      exact ih _ hless g rfl
    rw [hT, Form.ids_mapParts]
    refine List.Subperm.trans ?_ (hE.ids f)
    rw [(E f).ids_eq_cons, List.subperm_cons]
    exact subperm_flatMap_map hpart

/-- An edit that goes down does what the recursion does that applies `E` on the way down. -/
theorem editBelow_edits (hedit : EditsAs edit E) (hE : Prunes E)
    (hT : ∀ f, T f = (E f).mapParts T) {depth : Nat} (hdepth : f.ids.length ≤ depth)
    (h : t.Holds parent f) (hnodup : f.ids.Nodup) (hsize : f.ids.length ≤ t.size) :
    ∃ t', editBelow edit depth t f.id = .ok t' ∧ t'.Holds parent (T f) ∧
      SameOutside f.ids t t' := by
  induction depth generalizing t parent f with
  | zero =>
    rw [f.ids_eq_cons] at hdepth
    simp at hdepth
  | succ depth ih =>
    obtain ⟨t₁, hnode, hheld, hsame⟩ := hedit h hnodup hsize
    have hlength := (hE.ids f).length_le
    have hnodup' := nodup_of_subperm (hE.ids f) hnodup
    rw [(E f).ids_eq_cons, List.nodup_cons, hE.id] at hnodup'
    obtain ⟨hself, hparts⟩ := hnodup'
    have hchildren : t₁.children f.id = (E f).parts.map Form.id := hE.id f ▸ hheld.children
    have hbelow : ∀ g ∈ (E f).parts, ∀ t₂ : Tree, t₂.size = t.size → t₂.Holds (some f.id) g →
        ∃ t', editBelow edit depth t₂ g.id = .ok t' ∧ t'.Holds (some f.id) (T g) ∧
          SameOutside g.ids t₂ t' := by
      intro g hg t₂ hsize₂ hg₂
      have hless := length_ids_of_mem hg (Nat.le_trans hlength hdepth)
      have hfits := length_ids_of_mem hg (Nat.le_succ_of_le (Nat.le_trans hlength hsize))
      exact ih hless hg₂ (nodup_of_mem_parts hg hparts) (hsize₂ ▸ hfits)
    obtain ⟨t', hlater, hheldAll, hsameAll⟩ :=
      foldlM_edits hbelow (hE.mapParts hT) hparts hsame.size fun g hg => hE.id f ▸ hheld.part hg
    refine ⟨t', ?_, ?_, hsame.trans (hsameAll.mono ?_)⟩
    · have hstep : editBelow edit (depth + 1) t f.id
          = (t₁.children f.id).foldlM (editBelow edit depth) t₁ := by
        rw [editBelow, hnode]
        rfl
      rw [hstep, hchildren, hlater]
    · refine hT f ▸ holds_mapParts (hE.mapParts hT).id ?_ fun g hg => ?_
      · rw [hE.id, hsameAll.nodes _ hself, ← hE.id f]
        exact hheld.node
      · rw [hE.id]
        exact hheldAll g hg
    · intro i hi
      have hmem : i ∈ (E f).ids := (E f).ids_eq_cons ▸ List.mem_cons_of_mem _ hi
      exact (hE.ids f).subset hmem

end Tree

end CljFormat
