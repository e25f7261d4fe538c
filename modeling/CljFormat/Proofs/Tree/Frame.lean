/-
CljFormat.Proofs.Tree.Frame — what rearranging a tree leaves as it is.

The nodes that are no line breaks are the code of a tree. A transform edits the parts of nodes, so a
slip in one could drop a node, move it past another, put it elsewhere or link it to another parent.
It does none of that: whatever the transforms, the code comes in the same order, every node of it is
the same up to the line breaks among its parts, and no line break appears that was not there before
(`sameCode_rearrange`).

The argument is about forms. A form without the line breaks anywhere in it (`Form.unbroken`) is what
the transforms agree on (`unbrokenAll_applyAll`), and it says all that the code of a tree says
(`code_of_represents`, `codeNode_of_represents`).
-/
import CljFormat.Proofs.Reader.Readable
import CljFormat.Proofs.Tree.Rearrange

namespace CljFormat

/-! ## 1. Forms without their line breaks -/

namespace Form

open Transform (withoutBreaks)

variable {α : Type}

mutual

/-- A form without the line breaks in it. One under a sigil stays. -/
def unbroken : Form α → Form α
  | .atom note x => .atom note x
  | .prefixed note s body => .prefixed note s body.unbroken
  | .seq note b items => .seq note b (unbrokenAll items)

/-- Neighbouring forms without the line breaks among them and in them. -/
def unbrokenAll : List (Form α) → List (Form α)
  | [] => []
  | f :: rest => if f.isNewline then unbrokenAll rest else f.unbroken :: unbrokenAll rest

end

theorem unbrokenAll_eq_map (fs : List (Form α)) :
    unbrokenAll fs = (withoutBreaks fs).map unbroken := by
  induction fs with
  | nil => rfl
  | cons f rest ih => cases hf : f.isNewline <;> simp [unbrokenAll, withoutBreaks, hf, ih]

theorem id_unbroken (f : Form Label) : f.unbroken.id = f.id := by
  cases f <;> rfl

end Form

namespace Transform

open Form (unbroken unbrokenAll unbrokenAll_eq_map)

variable {α : Type} {T : Form α → Form α}

/-- What is left without line breaks depends on the items that are none. -/
theorem unbroken_seq_of_withoutBreaks {note : α} {b : Bracket} {fs gs : List (Form α)}
    (h : withoutBreaks gs = withoutBreaks fs) :
    unbroken (.seq note b gs) = unbroken (.seq note b fs) := by
  rw [unbroken, unbroken, unbrokenAll_eq_map, unbrokenAll_eq_map, h]

theorem Rearranges.isNewline (hT : Rearranges T) (f : Form α) :
    (T f).isNewline = f.isNewline := by
  cases f with
  | atom note x => rw [hT.atom]
  | prefixed note s body =>
    rw [hT.prefixed]
    rfl
  | seq note b items =>
    obtain ⟨items', hseq, -⟩ := hT.seq note b items
    rw [hseq]
    rfl

/-- What is the same form by form is the same for all forms that are no line breaks. -/
theorem unbrokenAll_map {fs : List (Form α)} (hbreak : ∀ f, (T f).isNewline = f.isNewline)
    (h : ∀ f ∈ fs, (T f).unbroken = f.unbroken) : unbrokenAll (fs.map T) = unbrokenAll fs := by
  have hcode : withoutBreaks (fs.map T) = (withoutBreaks fs).map T := by
    rw [withoutBreaks, withoutBreaks, List.filter_map]
    exact congrArg _ (List.filter_congr fun f _ => by simp [hbreak])
  rw [unbrokenAll_eq_map, unbrokenAll_eq_map, hcode, List.map_map]
  exact List.map_congr_left fun f hf => h f (List.mem_filter.mp hf).1

theorem Rearranges.unbroken (hT : Rearranges T) (f : Form α) :
    (T f).unbroken = f.unbroken := by
  induction f using Form.induct with
  | atom note x => rw [hT.atom]
  | prefixed note s body ih => rw [hT.prefixed, Form.unbroken, Form.unbroken, ih]
  | seq note b items ih =>
    obtain ⟨items', hseq, hbreaks⟩ := hT.seq note b items
    rw [hseq, unbroken_seq_of_withoutBreaks hbreaks, Form.unbroken, Form.unbroken,
      unbrokenAll_map hT.isNewline ih]

theorem unbroken_editCallOf {edit : List (Form α) → List (Form α)}
    (hedit : ∀ fs, withoutBreaks (edit fs) = withoutBreaks fs) (name : String) (f : Form α) :
    (editCallOf name edit f).unbroken = f.unbroken ∧
      (editCallOf name edit f).isNewline = f.isNewline := by
  unfold editCallOf
  split
  · split
    · exact ⟨unbroken_seq_of_withoutBreaks (hedit _), rfl⟩
    · exact ⟨rfl, rfl⟩
  · exact ⟨rfl, rfl⟩

/-- No transform changes more of a form than its line breaks. -/
theorem unbroken_applyTo (f : Form α) (x : Transform) :
    (applyTo f x).unbroken = f.unbroken ∧ (applyTo f x).isNewline = f.isNewline := by
  cases x with
  | trailing => exact ⟨rearranges_pullUp.unbroken f, rearranges_pullUp.isNewline f⟩
  | defnArglist => exact unbroken_editCallOf withoutBreaks_raiseArglist "defn" f
  | defmethodDispatch => exact unbroken_editCallOf withoutBreaks_raiseDispatch "defmethod" f
  | blankLines => exact ⟨rearranges_squeeze.unbroken f, rearranges_squeeze.isNewline f⟩

/-- Nor do all of them together. -/
theorem unbrokenAll_applyAll (enabled : List Transform) (fs : List (Form α)) :
    unbrokenAll (applyAll enabled fs) = unbrokenAll fs := by
  have hfold : ∀ (xs : List Transform) (f : Form α),
      (xs.foldl applyTo f).unbroken = f.unbroken ∧
        (xs.foldl applyTo f).isNewline = f.isNewline := by
    intro xs
    induction xs with
    | nil => exact fun f => ⟨rfl, rfl⟩
    | cons x xs ih =>
      intro f
      obtain ⟨hcode, hbreak⟩ := unbroken_applyTo f x
      exact ⟨(ih _).1.trans hcode, (ih _).2.trans hbreak⟩
  have hedited : unbrokenAll (fs.map fun f => (all.filter enabled.contains).foldl applyTo f)
      = unbrokenAll fs :=
    unbrokenAll_map (fun f => (hfold _ f).2) fun f _ => (hfold _ f).1
  rw [applyAll]
  split
  · rw [unbrokenAll_eq_map, withoutBreaks_collapse, ← unbrokenAll_eq_map, hedited]
  · exact hedited

/-- The transforms add no form that was not there before. -/
theorem subperm_ids_applyAll (enabled : List Transform) (fs : List (Form Label)) :
    List.Subperm ((applyAll enabled fs).flatMap Form.ids) (fs.flatMap Form.ids) := by
  have hedited : List.Subperm
      ((fs.map fun f => (all.filter enabled.contains).foldl applyTo f).flatMap Form.ids)
      (fs.flatMap Form.ids) :=
    Tree.subperm_flatMap_map fun f _ =>
      (Tree.prunes_foldl (all.filter enabled.contains)).ids f
  rw [applyAll]
  split
  · exact (Tree.subperm_flatMap (arrangement_collapse.subperm _)).trans hedited
  · exact hedited

end Transform

/-! ## 2. The code of a tree -/

/-- The same level of a form with only those of its items that `keep` accepts. -/
def Shape.keepItems {β : Type} (keep : β → Bool) : Shape β → Shape β
  | atom x => atom x
  | prefixed s body => prefixed s body
  | seq b items => seq b (items.filter keep)

namespace Tree

variable {t t' : Tree} {parent : Option NodeId} {f : Form Label} {fs fs' : List (Form Label)}
  {inside : Bool}

/-- Whether a node stands for a line break. -/
def isBreak (t : Tree) (id : NodeId) : Bool :=
  (t.shape? id).any Shape.isNewline

/-- The nodes that are no line breaks, in document order. -/
def code (t : Tree) : List NodeId :=
  t.flatten.filter fun id => !t.isBreak id

/-- A node without the line breaks among its parts: where it starts, its kind, what it says, its
parts that are code, and the node that it is part of. -/
def codeNode? (t : Tree) (id : NodeId) : Option Node :=
  t.nodes[id]?.map fun node =>
    { node with shape := node.shape.keepItems fun part => !t.isBreak part }

theorem Holds.isBreak (h : t.Holds parent f) : t.isBreak f.id = f.isNewline := by
  rw [Tree.isBreak, h.shape, Option.any_some, Shape.isNewline_map]
  rfl

/-- What is code node by node is code as a whole. -/
theorem filter_flatMap_ids
    (h : ∀ f ∈ fs, (f.ids.filter fun id => !t.isBreak id)
      = if f.isNewline then [] else f.unbroken.ids) :
    ((fs.flatMap Form.ids).filter fun id => !t.isBreak id)
      = (Form.unbrokenAll fs).flatMap Form.ids := by
  induction fs with
  | nil => rfl
  | cons f rest ih =>
    rw [List.forall_mem_cons] at h
    rw [List.flatMap_cons, List.filter_append, h.1, ih h.2, Form.unbrokenAll]
    split <;> rfl

/-- The code of a held form is the form without its line breaks. -/
theorem filter_ids_of_holds (h : t.Holds parent f) (hreadable : f.Readable inside) :
    (f.ids.filter fun id => !t.isBreak id)
      = if f.isNewline then [] else f.unbroken.ids := by
  have hbreak := h.isBreak
  induction f using Form.induct generalizing parent inside with
  | atom l x =>
    rw [Form.id_atom] at hbreak
    rw [Form.ids_atom, List.filter_singleton, hbreak, Form.unbroken, Form.ids_atom]
    cases Form.isNewline (.atom l x) <;> rfl
  | prefixed l s body ih =>
    obtain ⟨hsem, hbody⟩ := Form.readable_prefixed.mp hreadable
    have hpart : t.Holds (some l.id) body := h.part List.mem_cons_self
    have hcode : body.isNewline = false := (Form.isSemantic_iff.mp hsem).1
    have hself : t.isBreak l.id = false := hbreak
    have hbelow := ih hpart hbody hpart.isBreak
    rw [hcode] at hbelow
    rw [Form.ids_prefixed, List.filter_cons, hself, hbelow]
    rfl
  | seq l b items ih =>
    have hitems := (Form.readable_seq.mp hreadable).2
    have hself : t.isBreak l.id = false := hbreak
    have hbelow := filter_flatMap_ids fun f hf =>
      ih f hf (h.part hf) (hitems f hf) (h.part hf).isBreak
    rw [Form.ids_seq, List.filter_cons, hself, hbelow]
    simp [Form.isNewline, Form.shape, Shape.isNewline, Form.unbroken]

/-- The node of a form shows, its line breaks aside, what the form is without them. -/
theorem Holds.codeNode (h : t.Holds parent f) :
    t.codeNode? f.id = some (f.unbroken.node parent) := by
  rw [codeNode?, h.node, Option.map_some]
  cases f with
  | atom l x => rfl
  | prefixed l s body =>
    simp only [Form.node, Form.shape, Shape.map, Shape.keepItems, Form.unbroken, Form.note,
      Form.id_unbroken]
  | seq l b items =>
    have hitems : ((items.map Form.id).filter fun part => !t.isBreak part)
        = (Form.unbrokenAll items).map Form.id := by
      rw [List.filter_map, Form.unbrokenAll_eq_map, List.map_map, Transform.withoutBreaks]
      have hkeep : items.filter ((fun part => !t.isBreak part) ∘ Form.id)
          = items.filter fun f => !f.isNewline :=
        List.filter_congr fun f hf => congrArg not (h.part hf).isBreak
      rw [hkeep]
      exact List.map_congr_left fun f _ => f.id_unbroken.symm
    simp only [Form.node, Form.shape, Shape.map, Shape.keepItems, Form.unbroken, Form.note, hitems]

/-- So does every node below it that is code. -/
theorem codeNode_of_holds (h : t.Holds parent f) :
    ∀ e ∈ f.unbroken.entries parent, t.codeNode? e.1 = some e.2 := by
  induction f using Form.induct generalizing parent with
  | atom l x =>
    intro e he
    obtain rfl := List.mem_singleton.mp he
    exact h.codeNode
  | prefixed l s body ih =>
    have hbody := ih (h.part List.mem_cons_self)
    exact List.forall_mem_cons.mpr ⟨h.codeNode, hbody⟩
  | seq l b items ih =>
    rw [Form.unbroken, Form.entries, Form.entriesAll_eq_flatMap]
    refine List.forall_mem_cons.mpr ⟨h.codeNode, fun e he => ?_⟩
    rw [Form.unbrokenAll_eq_map, List.flatMap_map] at he
    obtain ⟨g, hg, he⟩ := List.mem_flatMap.mp he
    have hmem : g ∈ items := (List.mem_filter.mp hg).1
    exact ih g hmem (h.part hmem) e he

theorem code_of_represents (h : t.Represents fs) (hreadable : ∀ f ∈ fs, f.Readable inside) :
    t.code = (Form.unbrokenAll fs).flatMap Form.ids := by
  rw [code, flatten_of_represents h]
  exact filter_flatMap_ids fun f hf => filter_ids_of_holds (h.holds f hf) (hreadable f hf)

theorem codeNode_of_represents (h : t.Represents fs) :
    ∀ e ∈ (Form.unbrokenAll fs).flatMap (Form.entries none), t.codeNode? e.1 = some e.2 := by
  intro e he
  rw [Form.unbrokenAll_eq_map, List.flatMap_map] at he
  obtain ⟨f, hf, he⟩ := List.mem_flatMap.mp he
  exact codeNode_of_holds (h.holds f (List.mem_filter.mp hf).1) e he

/-! ## 3. Trees with the same code -/

/-- The second tree is the first with other line breaks between the same code. -/
structure SameCode (t t' : Tree) : Prop where
  /-- The code comes in the same order, nothing is added and nothing is left out. -/
  order : t'.code = t.code
  /-- Each node of it starts where it did, is of its kind and says what it said, is part of the same
  node, and has the same code among its parts. -/
  node : ∀ i ∈ t.code, t'.codeNode? i = t.codeNode? i
  /-- No node is there, or is there more often, than before. -/
  reachable : List.Subperm t'.flatten t.flatten

/-- Trees have the same code if their forms are the same without line breaks. -/
theorem sameCode_of_represents (h : t.Represents fs) (h' : t'.Represents fs')
    (hfs : ∀ f ∈ fs, f.Readable inside) (hfs' : ∀ f ∈ fs', f.Readable inside)
    (hcode : Form.unbrokenAll fs' = Form.unbrokenAll fs)
    (hids : List.Subperm (fs'.flatMap Form.ids) (fs.flatMap Form.ids)) : SameCode t t' := by
  have horder := code_of_represents h hfs
  refine ⟨?_, fun i hi => ?_, ?_⟩
  · rw [horder, code_of_represents h' hfs', hcode]
  · obtain ⟨f, hf, hi⟩ := List.mem_flatMap.mp (horder ▸ hi)
    obtain ⟨e, he, rfl⟩ := List.mem_map.mp (f.map_fst_entries none ▸ hi)
    have hmem := List.mem_flatMap.mpr ⟨f, hf, he⟩
    rw [codeNode_of_represents h e hmem, codeNode_of_represents h' e (hcode ▸ hmem)]
  · rwa [flatten_of_represents h, flatten_of_represents h']

/-- A node of the code is part of the same node of the code as before. -/
theorem SameCode.mem_children (h : SameCode t t') {i q : NodeId} (hi : i ∈ t.code)
    (hq : q ∈ t.code) : i ∈ t'.children q ↔ i ∈ t.children q := by
  have hkeep : ∀ {t : Tree}, i ∈ t.code →
      (i ∈ t.children q ↔ ∃ node, t.codeNode? q = some node ∧ i ∈ node.shape.parts) := by
    intro t hi
    have hcode : t.isBreak i = false := by simpa using (List.mem_filter.mp hi).2
    rw [Tree.children, shape?, codeNode?]
    cases t.nodes[q]? with
    | none => simp
    | some node => cases hs : node.shape <;> simp [hs, Shape.keepItems, Shape.parts, hcode]
  rw [hkeep hi, hkeep (h.order ▸ hi), h.node q hq]

/-- The transforms do nothing to the tree of a source but move or drop line breaks. -/
theorem sameCode_rearrange {options : Reader.Options} {source : String} {d : Reader.Document}
    (h : Reader.read options source = .ok d) (enabled : List Transform) :
    ∃ t', (ofDocument d).rearrange enabled = .ok t' ∧ SameCode (ofDocument d) t' := by
  have hbefore := represents_ofDocument h
  have hreadable := Reader.readable_of_read h
  obtain ⟨t', hok, hafter⟩ := represents_rearrange hbefore enabled
  exact ⟨t', hok, sameCode_of_represents hbefore hafter hreadable
    (Transform.readable_applyAll enabled hreadable) (Transform.unbrokenAll_applyAll enabled d.roots)
    (Transform.subperm_ids_applyAll enabled d.roots)⟩

/-- A definition whose argument vector moves up and whose closing delimiter does, and blank lines of
which all but one are dropped. -/
theorem sameCode_rearrange_definition :
    ∃ d t', Reader.read .everything "(defn f\n [x] x\n)\n\n\n\ny" = .ok d ∧
      (ofDocument d).rearrange Transform.all = .ok t' ∧ SameCode (ofDocument d) t' := by
  have hread : ∃ d, Reader.read .everything "(defn f\n [x] x\n)\n\n\n\ny" = .ok d := ⟨_, rfl⟩
  obtain ⟨d, hread⟩ := hread
  obtain ⟨t', hok, hsame⟩ := sameCode_rearrange hread Transform.all
  exact ⟨d, t', hread, hok, hsame⟩

end Tree

end CljFormat
