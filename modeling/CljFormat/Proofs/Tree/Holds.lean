/-
CljFormat.Proofs.Tree.Holds — the forms that a tree stands for.

A tree holds forms when every node of them is stored under its identity, with its parts given by
their identities and with the node it is part of as its parent (`Tree.Holds`). Parents aside, it
mirrors them (`Tree.Mirrors`), and forms that it mirrors may have nodes in common. The tree of a
document holds the roots of the document (`represents_ofDocument`), since no two forms of a
document have the same identity.

What a tree shows of itself is what the forms that it holds are: unfolding its roots gives these
forms (`unfold_of_holds`), and going through its nodes meets them in document order
(`visit_of_mirrors`). Both go only as deep, or as far, as there are nodes, and so the forms must not
have more nodes than the tree (`Tree.Represents`).
-/
import CljFormat.Proofs.Reader.Numbering
import CljFormat.Tree
import Mathlib.Data.List.Nodup
import Mathlib.Data.List.Perm.Subperm

namespace CljFormat

/-! ## 1. Nodes of forms -/

namespace Shape

variable {β γ : Type}

/-- The same level of a form with other parts. -/
def map (g : β → γ) : Shape β → Shape γ
  | atom x => atom x
  | prefixed s body => prefixed s (g body)
  | seq b items => seq b (items.map g)

@[simp] theorem parts_map (g : β → γ) (s : Shape β) : (s.map g).parts = s.parts.map g := by
  cases s <;> rfl

@[simp] theorem isNewline_map (g : β → γ) (s : Shape β) : (s.map g).isNewline = s.isNewline := by
  cases s with
  | atom x => cases x <;> rfl
  | prefixed s body => rfl
  | seq b items => rfl

end Shape

namespace Form

/-- The identity of a form. -/
def id (f : Form Label) : NodeId := f.note.id

/-- The identities of a form and of the forms below it, in document order. -/
def ids (f : Form Label) : List NodeId := f.nodes.map id

@[simp] theorem id_atom (l : Label) (x : Atom) : id (.atom l x) = l.id := rfl

@[simp] theorem id_prefixed (l : Label) (s : Sigil) (body : Form Label) :
    id (.prefixed l s body) = l.id := rfl

@[simp] theorem id_seq (l : Label) (b : Bracket) (items : List (Form Label)) :
    id (.seq l b items) = l.id := rfl

@[simp] theorem ids_atom (l : Label) (x : Atom) : ids (.atom l x) = [l.id] := rfl

@[simp] theorem ids_prefixed (l : Label) (s : Sigil) (body : Form Label) :
    ids (.prefixed l s body) = l.id :: body.ids := rfl

@[simp] theorem ids_seq (l : Label) (b : Bracket) (items : List (Form Label)) :
    ids (.seq l b items) = l.id :: items.flatMap ids := by
  rw [ids, nodes_seq, List.map_cons, List.map_flatMap]
  rfl

theorem ids_eq_cons (f : Form Label) : f.ids = f.id :: f.parts.flatMap ids := by
  cases f with
  | atom l x => rfl
  | prefixed l s body => simp [parts, shape, Shape.parts]
  | seq l b items => simp [parts, shape, Shape.parts]

theorem id_mem_ids (f : Form Label) : f.id ∈ f.ids :=
  f.ids_eq_cons ▸ List.mem_cons_self

theorem flatMap_ids (fs : List (Form Label)) : fs.flatMap ids = (nodesAll fs).map id := by
  rw [nodesAll_eq_flatMap, List.map_flatMap]
  rfl

/-- No two forms of a source have the same identity. -/
theorem eq_of_id {fs : List (Form Label)} {f g : Form Label} (h : (fs.flatMap ids).Nodup)
    (hf : f ∈ nodesAll fs) (hg : g ∈ nodesAll fs) (hid : f.id = g.id) : f = g :=
  List.inj_on_of_nodup_map (flatMap_ids fs ▸ h) hf hg hid

/-- The node of a form that is part of `parent`. -/
def node (parent : Option NodeId) (f : Form Label) : Node :=
  ⟨f.note.pos, f.shape.map id, parent⟩

mutual

/-- The nodes of a form that is part of `parent`, in document order, each with its identity. -/
def entries (parent : Option NodeId) : Form Label → List (NodeId × Node)
  | .atom l x => [(l.id, node parent (.atom l x))]
  | .prefixed l s body =>
    (l.id, node parent (.prefixed l s body)) :: entries (some l.id) body
  | .seq l b items => (l.id, node parent (.seq l b items)) :: entriesAll (some l.id) items

/-- The nodes of neighbouring forms. -/
def entriesAll (parent : Option NodeId) : List (Form Label) → List (NodeId × Node)
  | [] => []
  | f :: rest => entries parent f ++ entriesAll parent rest

end

theorem entriesAll_eq_flatMap (parent : Option NodeId) (fs : List (Form Label)) :
    entriesAll parent fs = fs.flatMap (entries parent) := by
  induction fs with
  | nil => rfl
  | cons f rest ih => simp [entriesAll, ih]

/-- The node of a form comes first, and then the nodes of its parts. -/
theorem entries_eq_cons (parent : Option NodeId) (f : Form Label) :
    f.entries parent = (f.id, f.node parent) :: f.parts.flatMap (entries (some f.id)) := by
  cases f with
  | atom l x => rfl
  | prefixed l s body => simp [entries, parts, shape, Shape.parts]
  | seq l b items => simp [entries, entriesAll_eq_flatMap, parts, shape, Shape.parts]

theorem map_fst_entries (parent : Option NodeId) (f : Form Label) :
    (f.entries parent).map Prod.fst = f.ids := by
  induction f using Form.induct generalizing parent with
  | atom l x => rfl
  | prefixed l s body ih => simp [entries, ih]
  | seq l b items ih =>
    rw [entries, entriesAll_eq_flatMap, List.map_cons, List.map_flatMap, ids_seq, List.flatMap_def,
      List.flatMap_def, List.map_congr_left fun f hf => ih f hf _]

theorem map_fst_flatMap_entries (parent : Option NodeId) (fs : List (Form Label)) :
    (fs.flatMap (entries parent)).map Prod.fst = fs.flatMap ids := by
  rw [List.map_flatMap]
  exact congrArg (List.flatMap · fs) (funext (map_fst_entries parent))

end Form

/-! ## 2. Trees that hold forms -/

namespace Tree

variable {t t' : Tree} {parent : Option NodeId} {f g : Form Label} {fs : List (Form Label)}

/-- The tree stores every node of a form that is part of `parent`. -/
def Holds (t : Tree) (parent : Option NodeId) (f : Form Label) : Prop :=
  ∀ e ∈ f.entries parent, t.nodes[e.1]? = some e.2

/-- A form is held if its node is stored and its parts are held. -/
theorem holds_iff :
    t.Holds parent f ↔
      t.nodes[f.id]? = some (f.node parent) ∧ ∀ g ∈ f.parts, t.Holds (some f.id) g := by
  simp only [Holds, f.entries_eq_cons, List.forall_mem_cons, List.forall_mem_flatMap]

theorem Holds.node (h : t.Holds parent f) : t.nodes[f.id]? = some (f.node parent) :=
  (holds_iff.mp h).1

theorem Holds.part (h : t.Holds parent f) {g : Form Label} (hg : g ∈ f.parts) :
    t.Holds (some f.id) g :=
  (holds_iff.mp h).2 g hg

/-- Only the nodes of a form matter to whether it is held. -/
theorem Holds.congr (h : t.Holds parent f) (hnodes : ∀ i ∈ f.ids, t'.nodes[i]? = t.nodes[i]?) :
    t'.Holds parent f := by
  intro e he
  have hmem : e.1 ∈ f.ids := f.map_fst_entries parent ▸ List.mem_map_of_mem he
  rw [hnodes e.1 hmem, h e he]

/-- Every form below a held form is held, as a part of some node. -/
theorem Holds.below (h : t.Holds parent f) {g : Form Label} (hg : g ∈ f.nodes) :
    ∃ p, t.Holds p g := by
  induction f using Form.induct generalizing parent with
  | atom l x => exact ⟨parent, List.mem_singleton.mp hg ▸ h⟩
  | prefixed l s body ih =>
    rw [Form.nodes_prefixed] at hg
    rcases List.mem_cons.mp hg with rfl | hg
    · exact ⟨parent, h⟩
    · exact ih (h.part List.mem_cons_self) hg
  | seq l b items ih =>
    rw [Form.nodes_seq] at hg
    rcases List.mem_cons.mp hg with rfl | hg
    · exact ⟨parent, h⟩
    · obtain ⟨f, hf, hg⟩ := List.mem_flatMap.mp hg
      exact ih f hf (h.part hf) hg

/-- The tree stores the outermost level of every form in `f`, whatever the parents are. -/
def Mirrors (t : Tree) (f : Form Label) : Prop :=
  ∀ g ∈ f.nodes, t.shape? g.id = some (g.shape.map Form.id)

theorem mirrors_iff :
    t.Mirrors f ↔ t.shape? f.id = some (f.shape.map Form.id) ∧ ∀ g ∈ f.parts, t.Mirrors g := by
  constructor
  · exact fun h => ⟨h f f.self_mem_nodes,
      fun g hg k hk => h k (Form.mem_nodes_iff.mpr (.inr ⟨g, hg, hk⟩))⟩
  · rintro ⟨hself, hparts⟩ g hg
    rcases Form.mem_nodes_iff.mp hg with rfl | ⟨k, hk, hg⟩
    · exact hself
    · exact hparts k hk g hg

theorem Mirrors.shape (h : t.Mirrors f) : t.shape? f.id = some (f.shape.map Form.id) :=
  (mirrors_iff.mp h).1

theorem Mirrors.part (h : t.Mirrors f) (hg : g ∈ f.parts) : t.Mirrors g :=
  (mirrors_iff.mp h).2 g hg

theorem Mirrors.children (h : t.Mirrors f) : t.children f.id = f.parts.map Form.id := by
  rw [Tree.children, h.shape]
  simp [Form.parts]

/-- What a tree holds, it mirrors. -/
theorem Holds.mirrors (h : t.Holds parent f) : t.Mirrors f := by
  intro g hg
  obtain ⟨p, hheld⟩ := h.below hg
  rw [shape?, hheld.node]
  rfl

theorem Holds.shape (h : t.Holds parent f) : t.shape? f.id = some (f.shape.map Form.id) :=
  h.mirrors.shape

theorem Holds.children (h : t.Holds parent f) : t.children f.id = f.parts.map Form.id :=
  h.mirrors.children

/-! ## 3. Unfolding and going through a tree -/

/-- A held form is what its node unfolds to. -/
theorem unfold_of_holds {depth : Nat} (h : t.Holds parent f) (hdepth : f.ids.length ≤ depth) :
    t.unfold depth f.id = some f := by
  induction depth generalizing parent f with
  | zero =>
    rw [f.ids_eq_cons] at hdepth
    simp at hdepth
  | succ depth ih =>
    have hpart : ∀ g ∈ f.parts, t.unfold depth g.id = some g := by
      intro g hg
      refine ih (h.part hg) ?_
      have hlength : g.ids.length ≤ (f.parts.flatMap Form.ids).length :=
        (List.sublist_flatten_of_mem (List.mem_map_of_mem hg)).length_le
      rw [f.ids_eq_cons, List.length_cons] at hdepth
      omega
    rw [unfold, h.node]
    cases f with
    | atom l x => rfl
    | prefixed l s body =>
      have hbody := hpart body List.mem_cons_self
      simp [Form.node, Form.shape, Shape.map, Form.note, hbody]
    | seq l b items =>
      have hitems : (items.map Form.id).filterMap (t.unfold depth) = items := by
        rw [List.filterMap_map]
        exact (List.filterMap_congr fun g hg => hpart g hg).trans List.filterMap_some
      simp [Form.node, Form.shape, Shape.map, Form.note, hitems]

theorem sizeAll_eq_length (fs : List (Form Label)) :
    Form.sizeAll fs = (fs.flatMap Form.ids).length := by
  have hsize : ∀ f : Form Label, f.size = f.ids.length := by
    intro f
    induction f using Form.induct with
    | atom l x => rfl
    | prefixed l s body ih => simp [Form.size, ih]
    | seq l b items ih =>
      have hall : Form.sizeAll items = (items.flatMap Form.ids).length := by
        induction items with
        | nil => rfl
        | cons g rest ihrest =>
          simp [Form.sizeAll, ih g List.mem_cons_self,
            ihrest fun g hg => ih g (List.mem_cons_of_mem _ hg)]
      simp [Form.size, hall]
  induction fs with
  | nil => rfl
  | cons f rest ih => simp [Form.sizeAll, hsize, ih]

/-- Going through mirrored forms meets their nodes in document order. -/
theorem visit_of_mirrors {count : Nat} (h : ∀ f ∈ fs, t.Mirrors f)
    (hcount : (fs.flatMap Form.ids).length = count) :
    t.visit count (fs.map Form.id) = fs.flatMap Form.ids := by
  induction count generalizing fs with
  | zero =>
    rw [List.length_eq_zero_iff.mp hcount]
    rfl
  | succ count ih =>
    cases fs with
    | nil => simp at hcount
    | cons f rest =>
      obtain ⟨hf, hrest⟩ := List.forall_mem_cons.mp h
      have hids : (f :: rest).flatMap Form.ids = f.id :: (f.parts ++ rest).flatMap Form.ids := by
        rw [List.flatMap_cons, f.ids_eq_cons, List.flatMap_append, List.cons_append]
      have hparts : ∀ g ∈ f.parts ++ rest, t.Mirrors g :=
        List.forall_mem_append.mpr ⟨fun g hg => hf.part hg, hrest⟩
      rw [hids, List.length_cons, Nat.add_right_cancel_iff] at hcount
      rw [List.map_cons, visit, hf.children, ← List.map_append, ih hparts hcount, hids]

/-! ## 4. Trees that represent forms -/

/-- The roots of the tree are these forms. -/
structure Represents (t : Tree) (fs : List (Form Label)) : Prop where
  roots : t.roots = fs.map Form.id
  holds : ∀ f ∈ fs, t.Holds none f
  /-- No two forms have the same identity. -/
  nodup : (fs.flatMap Form.ids).Nodup
  /-- There are no more forms than nodes. -/
  length_le : (fs.flatMap Form.ids).length ≤ t.size

theorem Represents.length_ids_le (h : t.Represents fs) (hf : f ∈ fs) : f.ids.length ≤ t.size :=
  Nat.le_trans (List.sublist_flatten_of_mem (List.mem_map_of_mem hf)).length_le h.length_le

/-- No two forms of a tree have a part in common. -/
theorem Represents.eq_of_part {k k' : Form Label} (h : t.Represents fs)
    (hf : f ∈ Form.nodesAll fs) (hg : g ∈ Form.nodesAll fs) (hk : k ∈ f.parts)
    (hk' : k' ∈ g.parts) (hid : k.id = k'.id) : f = g := by
  have hheld : ∀ f ∈ Form.nodesAll fs, ∀ k ∈ f.parts,
      t.nodes[k.id]? = some (k.node (some f.id)) := by
    intro f hf k hk
    rw [Form.nodesAll_eq_flatMap] at hf
    obtain ⟨root, hroot, hf⟩ := List.mem_flatMap.mp hf
    obtain ⟨parent, hf⟩ := (h.holds root hroot).below hf
    exact (hf.part hk).node
  have hnode : k.node (some f.id) = k'.node (some g.id) := by
    have hsame := hheld g hg k' hk'
    rw [← hid, hheld f hf k hk] at hsame
    exact Option.some.inj hsame
  have hparent : f.id = g.id := Option.some.inj (congrArg Node.parent hnode)
  exact Form.eq_of_id h.nodup hf hg hparent

/-- A tree stands for the forms that it represents. -/
theorem forms_of_represents (h : t.Represents fs) : t.forms = fs := by
  rw [forms, h.roots, List.filterMap_map]
  refine (List.filterMap_congr fun f hf => ?_).trans List.filterMap_some
  exact unfold_of_holds (h.holds f hf) (h.length_ids_le hf)

/-- The nodes of a tree in document order are those of the forms that it represents. -/
theorem flatten_of_represents (h : t.Represents fs) : t.flatten = fs.flatMap Form.ids := by
  rw [flatten, forms_of_represents h, h.roots, sizeAll_eq_length]
  exact visit_of_mirrors (fun f hf => (h.holds f hf).mirrors) rfl

/-! ## 5. The tree of a document -/

/-- Adding a form adds its nodes, one after another. -/
theorem addForm_eq_insertMany (f : Form Label) (parent : Option NodeId)
    (nodes : Std.TreeMap NodeId Node) :
    addForm parent nodes f = nodes.insertMany (f.entries parent) := by
  induction f using Form.induct generalizing parent nodes with
  | atom l x => rfl
  | prefixed l s body ih =>
    rw [addForm, ih, Form.entries, Std.TreeMap.insertMany_cons]
    rfl
  | seq l b items ih =>
    have hall : ∀ nodes, addForms (some l.id) nodes items
        = nodes.insertMany (items.flatMap (Form.entries (some l.id))) := by
      induction items with
      | nil => exact fun nodes => rfl
      | cons f rest ihrest =>
        intro nodes
        rw [addForms, ih f List.mem_cons_self, List.flatMap_cons, Std.TreeMap.insertMany_append]
        exact ihrest (fun g hg => ih g (List.mem_cons_of_mem _ hg)) _
    rw [addForm, hall, Form.entries, Form.entriesAll_eq_flatMap, Std.TreeMap.insertMany_cons]
    rfl

theorem addForms_eq_insertMany (fs : List (Form Label)) (parent : Option NodeId)
    (nodes : Std.TreeMap NodeId Node) :
    addForms parent nodes fs = nodes.insertMany (fs.flatMap (Form.entries parent)) := by
  induction fs generalizing nodes with
  | nil => rfl
  | cons f rest ih =>
    rw [addForms, addForm_eq_insertMany, ih, List.flatMap_cons, Std.TreeMap.insertMany_append]

/-- The tree of a document represents the roots of the document. -/
theorem represents_ofDocument {options : Reader.Options} {source : String} {d : Reader.Document}
    (h : Reader.read options source = .ok d) : (ofDocument d).Represents d.roots := by
  have hids := (Form.flatMap_ids d.roots).symm
  have hnodup : (d.roots.flatMap Form.ids).Nodup := hids ▸ Reader.nodup_of_read h
  have hlt : ∀ i ∈ d.roots.flatMap Form.ids, i < d.size := hids ▸ Reader.lt_size_of_read h
  refine ⟨rfl, ?_, hnodup, ?_⟩
  · have hdistinct : (d.roots.flatMap (Form.entries none)).Pairwise
        fun e e' => ¬ compare e.1 e'.1 = .eq := by
      rw [← Form.map_fst_flatMap_entries none, List.Nodup, List.pairwise_map] at hnodup
      exact hnodup.imp fun hne heq => hne (Nat.compare_eq_eq.mp heq)
    intro f hf e he
    rw [ofDocument, addForms_eq_insertMany]
    exact Std.TreeMap.getElem?_insertMany_list_of_mem (Nat.compare_eq_eq.mpr rfl) hdistinct
      (List.mem_flatMap.mpr ⟨f, hf, he⟩)
  · have hsub : d.roots.flatMap Form.ids ⊆ List.range d.size :=
      fun i hi => List.mem_range.mpr (hlt i hi)
    calc (d.roots.flatMap Form.ids).length
        ≤ (List.range d.size).length := (hnodup.subperm hsub).length_le
      _ = d.size := List.length_range

end Tree

end CljFormat
