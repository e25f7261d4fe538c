/-
CljFormat.Proofs.Tree.History — edits in the order in which they were made.

An edit writes to a tree step by step: it replaces the parts of a node, and then it gives one node
after another its parent. A refusal on the way would leave what was written so far. So edits are
programs here whose state is the tree and stays what it is when they are refused
(`Tree.replaceInPlace`), and it is shown that a refusal comes before the first write
(`Tree.replaceInPlace_eq`). What a replacement that is accepted writes is said node by node
(`Tree.Replaced`).

A history is a tree with the links that were made in it: which nodes an edit listed, and the parent
that it gave them. A node may be listed more than once, by one edit or by several, and the edits may
make a node part of another, of itself, or a root. Whatever they do, the parent of a node is the one
it was given last (`Tree.parentIn`). One edit carries this on (`Tree.sound_take`), as long as it
mentions no node that is still to be made, and so does a sequence of them (`Tree.sound_foldl`).
-/
import CljFormat.Proofs.Tree.Edit

namespace CljFormat

namespace Shape

variable {β : Type}

/-- The level with other parts; the kind and what it says stay. -/
def withParts (parts : List β) : Shape β → Shape β
  | atom x => atom x
  | prefixed s body => prefixed s (parts.headD body)
  | seq b _ => seq b parts

/-- Whether a form of this kind can have that many parts in place of those that it has. -/
def Admits (count : Nat) : Shape β → Prop
  | atom _ => False
  | prefixed _ _ => count = 1
  | seq _ _ => True

theorem parts_withParts {s : Shape β} {parts : List β} (h : s.Admits parts.length) :
    (s.withParts parts).parts = parts := by
  cases s with
  | atom x => cases h
  | prefixed s body =>
    obtain ⟨part, rfl⟩ := List.length_eq_one_iff.mp h
    rfl
  | seq b items => rfl

end Shape

namespace Tree

variable {t t' : Tree} {id i : NodeId} {parts : List NodeId}

/-! ## 1. Replacing in place -/

/-- Replaces the parts of a node in the tree that is the state, and then links these parts to it one
after another. -/
def replaceInPlace (id : NodeId) (parts : List NodeId) : EStateM EditError Tree Unit := do
  match (← get).nodes[id]? with
  | none => throw .unknownNode
  | some node =>
    match node.shape with
    | .prefixed s _ =>
      match parts with
      | [body] => modify (·.withNode id { node with shape := .prefixed s body })
      | _ => throw (.arity s.kindName parts.length)
    | .seq b _ => modify (·.withNode id { node with shape := .seq b parts })
    | .atom x => throw (.leaf x.kindName)
    parts.forM fun part => modify (·.setParents (some id) [part])

/-- Linking nodes one after another links all of them. -/
theorem forM_setParents (parent : Option NodeId) (parts : List NodeId) (t : Tree) :
    (parts.forM fun part => (modify (·.setParents parent [part]) : EStateM EditError Tree Unit)) t
      = .ok ⟨⟩ (t.setParents parent parts) := by
  induction parts generalizing t with
  | nil => rfl
  | cons part parts ih => exact ih (t.setParents parent [part])

/-- Replacing in place comes to what `setChildren` comes to, and a refusal has written nothing. -/
theorem replaceInPlace_eq (t : Tree) (id : NodeId) (parts : List NodeId) :
    replaceInPlace id parts t
      = match t.setChildren id parts with
        | .ok t' => .ok ⟨⟩ t'
        | .error e => .error e t := by
  have hget : ∀ next : Tree → EStateM EditError Tree Unit, (get >>= next) t = next t t :=
    fun next => rfl
  rw [replaceInPlace, hget, setChildren]
  cases t.nodes[id]? with
  | none => rfl
  | some node =>
    obtain ⟨pos, shape, parent⟩ := node
    cases shape with
    | atom x => rfl
    | prefixed s body => rcases parts with _ | ⟨part, _ | ⟨second, rest⟩⟩ <;> rfl
    | seq b items => exact forM_setParents (some id) parts _

/-- The node `i`, once `parts` are the parts of the node `id`: of that node nothing but its parts
changes, and of its parts nothing but their parent. -/
def rewritten (id : NodeId) (parts : List NodeId) (i : NodeId) (node : Node) : Node :=
  { node with
    shape := if i = id then node.shape.withParts parts else node.shape
    parent := if i ∈ parts then some id else node.parent }

/-- What a replacement of the parts of a node writes. -/
structure Replaced (t : Tree) (id : NodeId) (parts : List NodeId) (t' : Tree) : Prop where
  children : t'.children id = parts
  node : ∀ i, t'.nodes[i]? = t.nodes[i]?.map (rewritten id parts i)
  roots : t'.roots = t.roots
  size : t'.size = t.size

/-- A replacement is accepted or refused by the kind of the node and the number of the parts. -/
theorem setChildren_cases {node : Node} (hnode : t.nodes[id]? = some node)
    (parts : List NodeId) :
    (node.shape.Admits parts.length ∧ t.setChildren id parts
      = .ok ((t.withNode id { node with shape := node.shape.withParts parts }).setParents
          (some id) parts)) ∨
    (¬ node.shape.Admits parts.length ∧ ∃ e, t.setChildren id parts = .error e) := by
  obtain ⟨pos, shape, parent⟩ := node
  rw [setChildren, hnode]
  cases shape with
  | atom x => exact .inr ⟨fun h => h, _, rfl⟩
  | prefixed s body =>
    rcases parts with _ | ⟨part, _ | ⟨second, rest⟩⟩
    · exact .inr ⟨by simp [Shape.Admits], _, rfl⟩
    · exact .inl ⟨rfl, rfl⟩
    · exact .inr ⟨by simp [Shape.Admits], _, rfl⟩
  | seq b items => exact .inl ⟨trivial, rfl⟩

theorem replaced_setChildren (h : t.setChildren id parts = .ok t') : t.Replaced id parts t' := by
  cases hnode : t.nodes[id]? with
  | none => simp [setChildren, hnode] at h
  | some node =>
    rcases setChildren_cases hnode parts with ⟨hadmits, hok⟩ | ⟨-, e, herror⟩
    · obtain rfl := Except.ok.inj (hok.symm.trans h)
      have hnodes : ∀ i,
          ((t.withNode id { node with shape := node.shape.withParts parts }).setParents
            (some id) parts).nodes[i]? = t.nodes[i]?.map (rewritten id parts i) := by
        intro i
        rw [getElem?_setParents, getElem?_withNode]
        by_cases hi : i = id
        · subst hi
          by_cases hmem : i ∈ parts <;> simp [hnode, hmem, rewritten]
        · have hne : id ≠ i := fun heq => hi heq.symm
          rw [if_neg hne]
          cases t.nodes[i]? with
          | none => simp
          | some other => by_cases hmem : i ∈ parts <;> simp [hi, hmem, rewritten]
      refine ⟨?_, hnodes, rfl, rfl⟩
      rw [Tree.children, shape?, hnodes, hnode]
      simp [rewritten, Shape.parts_withParts hadmits]
    · cases herror.symm.trans h

/-! ## 2. Histories -/

/-- One edit of a tree. -/
inductive Edit
  | alloc (pos : Position) (shape : Shape NodeId)
  | setChildren (id : NodeId) (parts : List NodeId)
  | setRoots (roots : List NodeId)

namespace Edit

/-- Carries out an edit, and tells the parent that the nodes have which it lists. -/
def run : Edit → EStateM EditError Tree (Option NodeId)
  | alloc pos shape => do
    let (id, t) := (← get).alloc pos shape
    set t
    return some id
  | setChildren id parts => do
    replaceInPlace id parts
    return some id
  | setRoots roots => do
    modify (·.setRoots roots)
    return none

theorem run_setChildren_ok (h : t.setChildren id parts = .ok t') :
    (setChildren id parts).run t = .ok (some id) t' := by
  simp only [run, bind, EStateM.bind, replaceInPlace_eq, h]
  rfl

theorem run_setChildren_error {e : EditError} (h : t.setChildren id parts = .error e) :
    (setChildren id parts).run t = .error e t := by
  simp only [run, bind, EStateM.bind, replaceInPlace_eq, h]

/-- The nodes that an edit lists as parts or as roots. -/
def listed : Edit → List NodeId
  | alloc _ shape => shape.parts
  | setChildren _ parts => parts
  | setRoots roots => roots

/-- The edit mentions only nodes that exist. -/
def Known (t : Tree) : Edit → Prop
  | alloc _ shape => ∀ i ∈ shape.parts, t.contains i = true
  | setChildren id parts => t.contains id = true ∧ ∀ i ∈ parts, t.contains i = true
  | setRoots roots => ∀ i ∈ roots, t.contains i = true

instance (t : Tree) : (e : Edit) → Decidable (e.Known t)
  | alloc _ shape => inferInstanceAs (Decidable (∀ i ∈ shape.parts, t.contains i = true))
  | setChildren id parts =>
    inferInstanceAs (Decidable (t.contains id = true ∧ ∀ i ∈ parts, t.contains i = true))
  | setRoots roots => inferInstanceAs (Decidable (∀ i ∈ roots, t.contains i = true))

end Edit

/-- Nodes that an edit listed, and the parent that it gave them, or none. -/
abbrev Link := Option NodeId × List NodeId

/-- The parent that a node was given last, if the latest link comes first. -/
def parentIn : List Link → NodeId → Option NodeId
  | [], _ => none
  | (parent, listed) :: earlier, i => if i ∈ listed then parent else parentIn earlier i

/-- A tree, and the links that were made in it, latest first. -/
structure History where
  tree : Tree := {}
  links : List Link := []

/-- Carries out one more edit. One that is refused links no nodes, and leaves the tree as it has
written it. -/
def History.take (h : History) (e : Edit) : History :=
  match e.run h.tree with
  | .ok parent t => ⟨t, (parent, e.listed) :: h.links⟩
  | .error _ t => ⟨t, h.links⟩

/-- The history of edits of an empty tree. -/
def replay (es : List Edit) : History :=
  es.foldl History.take {}

/-- Each of the edits mentions only nodes that exist by then. -/
def KnownAll : History → List Edit → Prop
  | _, [] => True
  | h, e :: es => e.Known h.tree ∧ KnownAll (h.take e) es

instance decidableKnownAll : (h : History) → (es : List Edit) → Decidable (KnownAll h es)
  | _, [] => .isTrue trivial
  | h, e :: es =>
    have := decidableKnownAll (h.take e) es
    inferInstanceAs (Decidable (e.Known h.tree ∧ KnownAll (h.take e) es))

/-! ## 3. Parents -/

theorem contains_eq (t : Tree) (i : NodeId) : t.contains i = t.nodes[i]?.isSome := by
  rw [contains, Std.TreeMap.contains_eq_isSome_getElem?]

theorem parentIn_eq_none {links : List Link} (h : ∀ link ∈ links, i ∉ link.2) :
    parentIn links i = none := by
  induction links with
  | nil => rfl
  | cons link links ih =>
    rw [List.forall_mem_cons] at h
    rw [parentIn, if_neg h.1, ih h.2]

/-- What is so at every point of a history. -/
structure Sound (h : History) : Prop where
  stored : ∀ i, h.tree.contains i = true ↔ i < h.tree.size
  known : ∀ link ∈ h.links, ∀ i ∈ link.2, i < h.tree.size
  parents : ∀ i, h.tree.parent? i = parentIn h.links i

theorem sound_empty : Sound {} :=
  ⟨fun i => by simp [contains], by simp, fun i => by simp [parent?, parentIn]⟩

theorem contains_setParents (parent : Option NodeId) (is : List NodeId) :
    (t.setParents parent is).contains i = t.contains i := by
  rw [contains_eq, contains_eq, getElem?_setParents]
  split <;> simp

/-- Nodes that exist get the parent that they are given. -/
theorem parent?_setParents (parent : Option NodeId) {is : List NodeId}
    (hknown : ∀ i ∈ is, t.contains i = true) :
    (t.setParents parent is).parent? i = if i ∈ is then parent else t.parent? i := by
  rw [parent?, getElem?_setParents]
  split
  · next hi =>
    obtain ⟨node, hnode⟩ := Option.isSome_iff_exists.mp (contains_eq t i ▸ hknown i hi)
    simp [hnode]
  · rfl

/-- A link that is made to all listed nodes is the last of each. -/
theorem Sound.link {h : History} (hs : Sound h) {parent : Option NodeId} {listed : List NodeId}
    (hknown : ∀ i ∈ listed, h.tree.contains i = true)
    (hstored : ∀ i, t.contains i = h.tree.contains i) (hsize : t.size = h.tree.size)
    (hparents : ∀ i, t.parent? i = if i ∈ listed then parent else h.tree.parent? i) :
    Sound ⟨t, (parent, listed) :: h.links⟩ := by
  refine ⟨fun i => ?_, List.forall_mem_cons.mpr ⟨fun i hi => ?_, fun link hlink i hi => ?_⟩,
    fun i => ?_⟩
  · rw [hstored, hs.stored, hsize]
  · rw [hsize]
    exact (hs.stored i).mp (hknown i hi)
  · rw [hsize]
    exact hs.known link hlink i hi
  · rw [hparents, hs.parents, parentIn]

/-- A node that is made last is listed nowhere yet. -/
theorem sound_alloc {h : History} (hs : Sound h) {pos : Position} {shape : Shape NodeId}
    (hknown : ∀ i ∈ shape.parts, h.tree.contains i = true) :
    Sound (h.take (.alloc pos shape)) := by
  have hlinked : Sound ⟨h.tree.setParents (some h.tree.size) shape.parts,
      (some h.tree.size, shape.parts) :: h.links⟩ :=
    hs.link hknown (fun i => contains_setParents _ _) rfl (fun i => parent?_setParents _ hknown)
  have hnodes : ∀ i, (h.take (.alloc pos shape)).tree.nodes[i]?
      = if h.tree.size = i then some ⟨pos, shape, none⟩
        else (h.tree.setParents (some h.tree.size) shape.parts).nodes[i]? :=
    fun i => getElem?_withNode _ i _
  refine ⟨fun i => ?_, fun link hlink i hi => ?_, fun i => ?_⟩
  · have hbefore := hlinked.stored i
    rw [contains_eq] at hbefore
    have hsize : (h.take (.alloc pos shape)).tree.size = h.tree.size + 1 := rfl
    rw [contains_eq, hnodes, hsize]
    split
    · next heq => simp [← heq]
    · next hne =>
      have hne' : i ≠ h.tree.size := fun heq => hne heq.symm
      exact hbefore.trans ⟨Nat.lt_succ_of_lt,
        fun hi => Nat.lt_of_le_of_ne (Nat.le_of_lt_succ hi) hne'⟩
  · exact Nat.lt_succ_of_lt (hlinked.known link hlink i hi)
  · rw [parent?, hnodes]
    split
    · next heq =>
      subst heq
      refine (parentIn_eq_none fun link hlink hmem => ?_).symm
      exact absurd (hlinked.known link hlink _ hmem) (Nat.lt_irrefl _)
    · exact hlinked.parents i

theorem sound_setChildren {h : History} (hs : Sound h)
    (hknown : ∀ i ∈ parts, h.tree.contains i = true) :
    Sound (h.take (.setChildren id parts)) := by
  rw [History.take]
  cases hreplace : h.tree.setChildren id parts with
  | error e =>
    rw [Edit.run_setChildren_error hreplace]
    exact hs
  | ok t =>
    rw [Edit.run_setChildren_ok hreplace]
    have hreplaced := replaced_setChildren hreplace
    refine hs.link hknown (fun i => ?_) hreplaced.size fun i => ?_
    · rw [contains_eq, contains_eq, hreplaced.node, Option.isSome_map]
    · rw [parent?, parent?, hreplaced.node]
      show _ = if i ∈ parts then some id else _
      cases hnode : h.tree.nodes[i]? with
      | some node => by_cases hi : i ∈ parts <;> simp [hi, rewritten]
      | none =>
        have hi : i ∉ parts := fun hi => by
          have hstored := hknown i hi
          simp [contains_eq, hnode] at hstored
        simp [hi]

/-- One edit carries on what is so at every point. -/
theorem sound_take {h : History} (hs : Sound h) {e : Edit} (hknown : e.Known h.tree) :
    Sound (h.take e) := by
  cases e with
  | alloc pos shape => exact sound_alloc hs hknown
  | setChildren id parts => exact sound_setChildren hs hknown.2
  | setRoots roots =>
    exact hs.link hknown (fun i => contains_setParents _ _) rfl
      fun i => parent?_setParents _ hknown

/-- So does a sequence of edits. -/
theorem sound_foldl {h : History} (hs : Sound h) {es : List Edit} (hknown : KnownAll h es) :
    Sound (es.foldl History.take h) := by
  induction es generalizing h with
  | nil => exact hs
  | cons e es ih => exact ih (sound_take hs hknown.1) hknown.2

/-! ## 4. Sequences of edits -/

/-- After any edits that mention only nodes that exist, the parent of each node is the one that it
was given last, if any. Replacing the parts of a node then changes nothing at all if it is refused;
it is refused exactly if the node is of a kind that cannot have so many parts. If it is accepted,
the parts of the node and the parents of these parts change, and nothing else does. -/
theorem replay_keeps (es : List Edit) (h : KnownAll {} es) :
    (∀ i, (replay es).tree.parent? i = parentIn (replay es).links i) ∧
    ∀ id parts, (Edit.setChildren id parts).Known (replay es).tree →
      (∀ e t, (Edit.setChildren id parts).run (replay es).tree = .error e t →
        t = (replay es).tree) ∧
      (∀ parent t, (Edit.setChildren id parts).run (replay es).tree = .ok parent t →
        parent = some id ∧ (replay es).tree.Replaced id parts t) ∧
      ((∃ parent t, (Edit.setChildren id parts).run (replay es).tree = .ok parent t) ↔
        ∃ node, (replay es).tree.nodes[id]? = some node ∧ node.shape.Admits parts.length) := by
  refine ⟨(sound_foldl sound_empty h).parents, fun id parts hknown => ?_⟩
  obtain ⟨node, hnode⟩ := Option.isSome_iff_exists.mp (contains_eq _ id ▸ hknown.1)
  rcases setChildren_cases hnode parts with ⟨hadmits, hok⟩ | ⟨hnot, e, herror⟩
  · have hrun := Edit.run_setChildren_ok hok
    refine ⟨fun e t ht => ?_, fun parent t ht => ?_, ?_⟩
    · cases hrun.symm.trans ht
    · cases hrun.symm.trans ht
      exact ⟨rfl, replaced_setChildren hok⟩
    · exact ⟨fun _ => ⟨node, hnode, hadmits⟩, fun _ => ⟨_, _, hrun⟩⟩
  · have hrun := Edit.run_setChildren_error herror
    refine ⟨fun e t ht => ?_, fun parent t ht => ?_, ?_, ?_⟩
    · cases hrun.symm.trans ht
      rfl
    · cases hrun.symm.trans ht
    · rintro ⟨parent, t, ht⟩
      cases hrun.symm.trans ht
    · rintro ⟨other, hother, hadmits⟩
      cases hnode.symm.trans hother
      exact absurd hadmits hnot

/-- A node that is listed twice, one that is moved, one that is made a root, one that is made part
of itself, and two replacements that are refused. -/
theorem replay_keeps_shared :
    let es : List Edit :=
      [.alloc .start (.atom (.symbol "a")), .alloc .start (.atom (.symbol "b")),
        .alloc .start (.seq .list [0, 1, 0]), .alloc .start (.prefixed .quote 1),
        .setChildren 3 [0, 1], .setChildren 0 [1], .setRoots [2, 0], .setChildren 2 [2, 1]]
    KnownAll {} es ∧ (Edit.setChildren 3 [0, 1]).Known (replay es).tree ∧
      [0, 1, 2, 3].map (replay es).tree.parent? = [none, some 2, some 2, none] ∧
      (∀ i, (replay es).tree.parent? i = parentIn (replay es).links i) ∧
      (∀ e t, (Edit.setChildren 3 [0, 1]).run (replay es).tree = .error e t →
        t = (replay es).tree) ∧
      ∀ parent t, (Edit.setChildren 3 [0]).run (replay es).tree = .ok parent t →
        parent = some 3 ∧ (replay es).tree.Replaced 3 [0] t := by
  intro es
  have hknown : KnownAll {} es := by decide
  have htwo : (Edit.setChildren 3 [0, 1]).Known (replay es).tree := by decide
  have hone : (Edit.setChildren 3 [0]).Known (replay es).tree := by decide
  obtain ⟨hparents, hkept⟩ := replay_keeps es hknown
  exact ⟨hknown, htwo, by decide, hparents, (hkept 3 [0, 1] htwo).1, (hkept 3 [0] hone).2.1⟩

end Tree

end CljFormat
