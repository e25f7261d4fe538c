/-
CljFormat.Proofs.Tree.Closed — trees in which every part exists.

A tree gives out identities in order, and refers to no node that is not there (`Tree.Closed`): so it
is with the tree of a source (`Tree.closed_of_read`), and no edit that mentions only nodes that
exist changes that (`Tree.closed_take`). An edit may well make a node part of itself. The tree of a
source has no such node, since parts have smaller identities there (`Tree.acyclic_of_descending`).
-/
import CljFormat.Proofs.Tree.History
import CljFormat.Proofs.Tree.WellFormed

namespace CljFormat

namespace Tree

variable {t t' : Tree} {id p i : NodeId}

/-! ## 1. Nodes that are reached -/

/-- A node is reached: a root, or below one. -/
def Reached (t : Tree) (i : NodeId) : Prop :=
  i ∈ t.roots ∨ ∃ r ∈ t.roots, t.Below r i

/-- Roots and parts exist, and identities were given out in order. -/
structure Closed (t : Tree) : Prop where
  roots : ∀ i ∈ t.roots, t.contains i = true
  parts : ∀ p, ∀ i ∈ t.children p, t.contains i = true
  bounded : ∀ i, t.contains i = true → i < t.size

/-- No node that is reached is below itself. -/
def Acyclic (t : Tree) : Prop :=
  ∀ i, t.Reached i → ¬ t.Below i i

theorem Reached.part (h : t.Reached p) (hi : i ∈ t.children p) : t.Reached i := by
  rcases h with hroot | ⟨r, hroot, hbelow⟩
  · exact .inr ⟨p, hroot, .part hi⟩
  · exact .inr ⟨r, hroot, .step hbelow hi⟩

theorem Closed.contains_of_reached (h : t.Closed) (hi : t.Reached i) : t.contains i = true := by
  rcases hi with hroot | ⟨r, -, hbelow⟩
  · exact h.roots i hroot
  · cases hbelow with
    | part hpart => exact h.parts _ i hpart
    | step _ hpart => exact h.parts _ i hpart

/-- A tree in which parts have smaller identities has no cycles. -/
theorem acyclic_of_descending (h : ∀ p, t.Reached p → ∀ i ∈ t.children p, i < p) : t.Acyclic := by
  intro p hp hcycle
  have hsmaller : ∀ i, t.Below p i → t.Reached i ∧ i < p := by
    intro i hi
    induction hi with
    | part hi => exact ⟨hp.part hi, h p hp _ hi⟩
    | step _ hi ih => exact ⟨ih.1.part hi, Nat.lt_trans (h _ ih.1 _ hi) ih.2⟩
  exact Nat.lt_irrefl p (hsmaller p hcycle).2

/-! ## 2. Trees that are read -/

theorem contains_of_mem_children (hi : i ∈ t.children p) : t.contains p = true := by
  rw [contains_eq]
  cases hnode : t.nodes[p]? with
  | some node => rfl
  | none => simp [Tree.children, shape?, hnode] at hi

/-- The nodes that the tree of a source stores are those that it is gone through. -/
theorem contains_iff_mem_flatten {options : Reader.Options} {source : String} {d : Reader.Document}
    (h : Reader.read options source = .ok d) :
    (ofDocument d).contains i = true ↔ i ∈ (ofDocument d).flatten := by
  rw [flatten_of_represents (represents_ofDocument h), contains, ofDocument,
    addForms_eq_insertMany, Std.TreeMap.contains_insertMany_list, Form.map_fst_flatMap_entries]
  simp

/-- The tree of a source is closed and has no cycles. -/
theorem closed_of_read {options : Reader.Options} {source : String} {d : Reader.Document}
    (h : Reader.read options source = .ok d) :
    (ofDocument d).Closed ∧ (ofDocument d).Acyclic := by
  have hstored : ∀ i, (ofDocument d).contains i = true ↔ i ∈ (ofDocument d).flatten :=
    fun i => contains_iff_mem_flatten h
  have hflatten : (ofDocument d).flatten = d.roots.flatMap Form.ids :=
    flatten_of_represents (represents_ofDocument h)
  have hwell : (ofDocument d).WellFormed := (wellFormed_of_read h).1
  have hlinked : ∀ p, ∀ i ∈ (ofDocument d).children p,
      (ofDocument d).parent? i = some p ∧ i < p :=
    fun p i hi => hwell.linked p ((hstored p).mp (contains_of_mem_children hi)) i hi
  refine ⟨⟨fun i hi => ?_, fun p i hi => ?_, fun i hi => ?_⟩,
    acyclic_of_descending fun p _ i hi => (hlinked p i hi).2⟩
  · obtain ⟨f, hf, rfl⟩ := List.mem_map.mp hi
    exact (hstored _).mpr (hflatten ▸ List.mem_flatMap.mpr ⟨f, hf, f.id_mem_ids⟩)
  · have hparent := (hlinked p i hi).1
    rw [contains_eq]
    cases hnode : (ofDocument d).nodes[i]? with
    | some node => rfl
    | none => simp [parent?, hnode] at hparent
  · rw [hstored, hflatten, Form.flatMap_ids] at hi
    exact Reader.lt_size_of_read h i hi

/-! ## 3. Trees that are edited -/

theorem children_setParents (parent : Option NodeId) (is : List NodeId) :
    (t.setParents parent is).children p = t.children p := by
  have hshape : (t.setParents parent is).shape? p = t.shape? p := by
    rw [shape?, shape?, getElem?_setParents]
    split
    · rw [Option.map_map]
      rfl
    · rfl
  rw [Tree.children, Tree.children, hshape]

theorem Closed.setParents (h : t.Closed) (parent : Option NodeId) (is : List NodeId) :
    (t.setParents parent is).Closed := by
  refine ⟨fun i hi => ?_, fun p i hi => ?_, fun i hi => ?_⟩
  · rw [contains_setParents]
    exact h.roots i hi
  · rw [contains_setParents]
    exact h.parts p i (children_setParents parent is ▸ hi)
  · rw [contains_setParents] at hi
    exact h.bounded i hi

theorem Closed.setChildren {parts : List NodeId} (h : t.Closed)
    (hknown : ∀ i ∈ parts, t.contains i = true) (hok : t.setChildren id parts = .ok t') :
    t'.Closed := by
  have hreplaced := replaced_setChildren hok
  have hstored : ∀ i, t'.contains i = t.contains i := by
    intro i
    rw [contains_eq, contains_eq, hreplaced.node, Option.isSome_map]
  refine ⟨fun i hi => ?_, fun p i hi => ?_, fun i hi => ?_⟩
  · rw [hstored]
    exact h.roots i (hreplaced.roots ▸ hi)
  · rw [hstored]
    by_cases hp : p = id
    · subst hp
      exact hknown i (hreplaced.children ▸ hi)
    · have hshape : t'.shape? p = t.shape? p := by
        rw [shape?, shape?, hreplaced.node, Option.map_map]
        exact Option.map_congr fun node _ => if_neg hp
      rw [Tree.children, hshape] at hi
      exact h.parts p i hi
  · rw [hreplaced.size]
    exact h.bounded i (hstored i ▸ hi)

theorem Closed.alloc {shape : Shape NodeId} (h : t.Closed) (pos : Position)
    (hknown : ∀ i ∈ shape.parts, t.contains i = true) : (t.alloc pos shape).2.Closed := by
  have hnodes : ∀ i, (t.alloc pos shape).2.nodes[i]?
      = if t.size = i then some ⟨pos, shape, none⟩
        else (t.setParents (some t.size) shape.parts).nodes[i]? :=
    fun i => getElem?_withNode _ i _
  have hstored : ∀ i, t.contains i = true → (t.alloc pos shape).2.contains i = true := by
    intro i hi
    rw [contains_eq, hnodes]
    split
    · rfl
    · rw [← contains_eq, contains_setParents]
      exact hi
  refine ⟨fun i hi => hstored i (h.roots i hi), fun p i hi => hstored i ?_, fun i hi => ?_⟩
  · rw [Tree.children, shape?, hnodes] at hi
    split at hi
    · exact hknown i hi
    · rw [← shape?, ← Tree.children, children_setParents] at hi
      exact h.parts p i hi
  · show i < t.size + 1
    rw [contains_eq, hnodes] at hi
    split at hi
    · next hsize => exact hsize ▸ Nat.lt_succ_self _
    · rw [← contains_eq, contains_setParents] at hi
      exact Nat.lt_succ_of_lt (h.bounded i hi)

/-- An edit that mentions only nodes that exist leaves a tree closed. -/
theorem closed_take {h : History} {e : Edit} (hclosed : h.tree.Closed) (hknown : e.Known h.tree) :
    (h.take e).tree.Closed := by
  cases e with
  | alloc pos shape => exact hclosed.alloc pos hknown
  | setChildren id parts =>
    rw [History.take]
    cases hreplace : h.tree.setChildren id parts with
    | error e =>
      rw [Edit.run_setChildren_error hreplace]
      exact hclosed
    | ok t =>
      rw [Edit.run_setChildren_ok hreplace]
      exact hclosed.setChildren hknown.2 hreplace
  | setRoots roots =>
    have hlinked := hclosed.setParents none roots
    refine ⟨fun i hi => ?_, hlinked.parts, hlinked.bounded⟩
    exact (contains_setParents none roots).trans (hknown i hi)

/-- So does a sequence of edits. -/
theorem closed_foldl {h : History} {es : List Edit} (hclosed : h.tree.Closed)
    (hknown : KnownAll h es) : (es.foldl History.take h).tree.Closed := by
  induction es generalizing h with
  | nil => exact hclosed
  | cons e es ih => exact ih (closed_take hclosed hknown.1) hknown.2

theorem closed_empty : Closed {} :=
  ⟨fun i hi => absurd hi List.not_mem_nil, fun p i hi => by simp [Tree.children, shape?] at hi,
    fun i hi => by simp [contains] at hi⟩

end Tree

end CljFormat
