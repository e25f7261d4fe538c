/-
CljFormat.Proofs.Tree.WellFormed — the tree of a source is well formed, rearranged or not.

What goes through a tree relies on more than the types say: that no node is met twice, that parents
and parts agree, that a map pairs up, that a sigil has code under it, and that function literals do
not nest. `Tree.WellFormed` lists this, and adds that a part has a smaller identity than what it is
part of, so that no node is below itself.

All of it is read off the forms that a tree represents (`wellFormed_of_represents`). Which forms can
be read is known from `Form.Readable`; that parts have smaller identities (`Form.Descending`) is how
the reader builds forms, and the transforms give no form a part that it did not have.
-/
import CljFormat.Proofs.Tree.Frame
import CljFormat.Proofs.Tree.Suppressed

namespace CljFormat

namespace Form

/-! ## 1. Function literals -/

/-- What stands below a form inside a function literal is inside it too. -/
theorem readable_true_of_mem_nodes {α : Type} {f g : Form α} (h : f.Readable true)
    (hg : g ∈ f.nodes) : g.Readable true := by
  have hinside : ∀ b : Bracket, b.insideOf true = true := by
    intro b
    cases b <;> rfl
  induction f using Form.induct with
  | atom note x => exact List.mem_singleton.mp hg ▸ h
  | prefixed note s body ih =>
    rcases List.mem_cons.mp hg with rfl | hg
    · exact h
    · exact ih (readable_prefixed.mp h).2 hg
  | seq note b items ih =>
    rw [nodes_seq] at hg
    rcases List.mem_cons.mp hg with rfl | hg
    · exact h
    · obtain ⟨f, hf, hg⟩ := List.mem_flatMap.mp hg
      exact ih f hf (hinside b ▸ (readable_seq.mp h).2 f hf) hg

/-! ## 2. Parts with smaller identities -/

/-- The parts of every form below have smaller identities than the form. -/
def Descending (f : Form Label) : Prop :=
  ∀ g ∈ f.nodes, ∀ k ∈ g.parts, k.id < g.id

theorem descending_iff {f : Form Label} :
    f.Descending ↔ ∀ g ∈ f.parts, g.id < f.id ∧ g.Descending := by
  constructor
  · intro h g hg
    refine ⟨h f f.self_mem_nodes g hg, fun k hk => h k ?_⟩
    exact mem_nodes_iff.mpr (.inr ⟨g, hg, hk⟩)
  · intro h g hg
    rcases mem_nodes_iff.mp hg with rfl | ⟨p, hp, hg⟩
    · exact fun k hk => (h k hk).1
    · exact (h p hp).2 g hg

/-- The reader completes the parts of a form before the form. -/
theorem descending_of_built {options : Reader.Options} {f : Form Label}
    (h : Reader.Built options f) : f.Descending := by
  intro g hg k hk
  cases h.of_mem_nodes hg with
  | atom l x => exact absurd hk List.not_mem_nil
  | prefixed s _ hid _ => exact List.mem_singleton.mp hk ▸ hid
  | seq b _ hid _ => exact hid k hk

end Form

namespace Transform

variable {E T : Form Label → Form Label} {f : Form Label}

/-- A form that keeps its identity and some of its parts is descending. -/
theorem descending_of_parts (hid : (E f).id = f.id) (hparts : (E f).parts ⊆ f.parts)
    (h : f.Descending) : (E f).Descending := by
  rw [Form.descending_iff] at h ⊢
  rw [hid]
  exact fun g hg => h g (hparts hg)

/-- So is one of which this holds at every level. -/
theorem descending_mapParts (hE : Tree.Prunes E) (hparts : ∀ f, (E f).parts ⊆ f.parts)
    (hT : ∀ f, T f = (E f).mapParts T) (h : f.Descending) : (T f).Descending := by
  have hid := (hE.mapParts hT).id
  induction f using Form.inductParts with
  | step f ih =>
    rw [Form.descending_iff] at h ⊢
    rw [hid, hT, Form.parts_mapParts, List.forall_mem_map]
    intro g hg
    rw [hid]
    exact ⟨(h g (hparts f hg)).1, ih g (hparts f hg) (h g (hparts f hg)).2⟩

theorem parts_tightened (f : Form Label) : (Tree.tightened f).parts ⊆ f.parts := by
  cases f with
  | seq l b items =>
    rw [Tree.tightened]
    split
    · exact (arrangement_dropTrailingBreaks.subperm items).subset
    · exact List.Subset.refl _
  | _ => exact List.Subset.refl _

theorem parts_thinned (f : Form Label) : (Tree.thinned f).parts ⊆ f.parts := by
  cases f with
  | seq l b items => exact (arrangement_collapse.subperm items).subset
  | _ => exact List.Subset.refl _

theorem parts_editCallOf {edit : ∀ {α : Type}, List (Form α) → List (Form α)}
    (hedit : Arrangement edit) (name : String) (f : Form Label) :
    (editCallOf name edit f).parts ⊆ f.parts := by
  unfold editCallOf
  split
  · split
    · next items _ => exact (hedit.subperm items).subset
    · exact List.Subset.refl _
  · exact List.Subset.refl _

/-- No transform gives a form a part with a greater identity. -/
theorem descending_applyTo (h : f.Descending) (x : Transform) : (applyTo f x).Descending := by
  cases x with
  | trailing =>
    exact descending_mapParts Tree.prunes_tightened parts_tightened Tree.pullUp_eq_mapParts h
  | defnArglist =>
    exact descending_of_parts ((Tree.prunes_applyTo .defnArglist).id f)
      (parts_editCallOf arrangement_raiseArglist "defn" f) h
  | defmethodDispatch =>
    exact descending_of_parts ((Tree.prunes_applyTo .defmethodDispatch).id f)
      (parts_editCallOf arrangement_raiseDispatch "defmethod" f) h
  | blankLines =>
    exact descending_mapParts Tree.prunes_thinned parts_thinned Tree.squeeze_eq_mapParts h

theorem descending_applyAll (enabled : List Transform) {fs : List (Form Label)}
    (h : ∀ f ∈ fs, f.Descending) : ∀ f ∈ applyAll enabled fs, f.Descending := by
  have hfold : ∀ (xs : List Transform) (f : Form Label), f.Descending →
      (xs.foldl applyTo f).Descending := by
    intro xs
    induction xs with
    | nil => exact fun f hf => hf
    | cons x xs ih => exact fun f hf => ih _ (descending_applyTo hf x)
  have hedited : ∀ f ∈ fs.map fun f => (all.filter enabled.contains).foldl applyTo f,
      f.Descending := List.forall_mem_map.mpr fun f hf => hfold _ f (h f hf)
  rw [applyAll]
  split
  · exact fun f hf => hedited f ((arrangement_collapse.subperm _).subset hf)
  · exact hedited

end Transform

/-! ## 3. Well-formed trees -/

namespace Shape

variable {β γ : Type}

theorem isSemantic_map (g : β → γ) (s : Shape β) : (s.map g).isSemantic = s.isSemantic := by
  cases s with
  | atom x => cases x <;> rfl
  | _ => rfl

theorem isPaired_map (g : β → γ) (s : Shape β) : (s.map g).isPaired = s.isPaired := by
  cases s with
  | atom x => cases x <;> rfl
  | prefixed s body => cases s <;> rfl
  | seq b items => rfl

end Shape

namespace Tree

variable {t : Tree} {parent : Option NodeId} {f g : Form Label} {fs : List (Form Label)}
  {p i : NodeId}

/-- Whether a node is a function literal. -/
def isFnLiteral (t : Tree) (id : NodeId) : Bool :=
  match t.shape? id with
  | some (.seq .fnLiteral _) => true
  | _ => false

/-- A node is below `p`: a part of it, or a part of a node below it. -/
inductive Below (t : Tree) (p : NodeId) : NodeId → Prop
  | part {i : NodeId} : i ∈ t.children p → Below t p i
  | step {q i : NodeId} : Below t p q → i ∈ t.children q → Below t p i

/-- What the tree of a source is like. -/
structure WellFormed (t : Tree) : Prop where
  /-- No node is met twice. -/
  nodup : t.flatten.Nodup
  stored : ∀ i ∈ t.flatten, t.contains i = true
  /-- The parts of a node have it as their parent, and smaller identities. -/
  linked : ∀ p ∈ t.flatten, ∀ i ∈ t.children p, t.parent? i = some p ∧ i < p
  roots : ∀ r ∈ t.roots, t.parent? r = none
  /-- The keys and values of a map pair up. -/
  paired : ∀ p ∈ t.flatten, ∀ ns items, t.shape? p = some (.seq (.map ns) items) →
    t.countPaired items % 2 = 0
  /-- Neither a comment nor a line break stands under a sigil. -/
  bodies : ∀ p ∈ t.flatten, ∀ s body, t.shape? p = some (.prefixed s body) →
    ∃ shape, t.shape? body = some shape ∧ shape.isSemantic = true
  /-- Function literals do not nest. -/
  unnested : ∀ p ∈ t.flatten, t.isFnLiteral p = true → ∀ i, t.Below p i → t.isFnLiteral i = false

/-! ## 4. What held forms say of nodes -/

theorem Holds.parent_eq (h : t.Holds parent f) : t.parent? f.id = parent := by
  rw [parent?, h.node]
  rfl

theorem Holds.isFnLiteral (h : t.Holds parent f) :
    t.isFnLiteral f.id = true ↔ ∃ l items, f = .seq l .fnLiteral items := by
  rw [Tree.isFnLiteral, h.shape]
  cases f with
  | seq l b items => cases b <;> simp [Form.shape, Shape.map]
  | _ => simp [Form.shape, Shape.map]

/-- How many of some nodes are of a kind shows in the forms that they mirror. -/
theorem countShapes_of_mirrors {q : {β : Type} → Shape β → Bool}
    (hq : ∀ {β γ : Type} (g : β → γ) (s : Shape β), q (s.map g) = q s)
    (h : ∀ f ∈ fs, t.Mirrors f) :
    t.countShapes q (fs.map Form.id) = fs.countP fun f => q f.shape := by
  rw [countShapes, List.countP_map]
  refine List.countP_congr fun f hf => ?_
  rw [Function.comp_apply, (h f hf).shape, Option.any_some, hq]

theorem countPaired_of_mirrors (h : ∀ f ∈ fs, t.Mirrors f) :
    t.countPaired (fs.map Form.id) = fs.countP Form.isPaired :=
  countShapes_of_mirrors Shape.isPaired_map h

/-- What is below the node of a form is the node of something below its parts. -/
theorem Holds.below_part (h : t.Holds parent f) (hi : t.Below f.id i) :
    ∃ k ∈ f.parts, ∃ g ∈ k.nodes, g.id = i := by
  have hpart : ∀ {parent g}, t.Holds parent g → ∀ {j}, j ∈ t.children g.id →
      ∃ k ∈ g.parts, k.id = j := by
    intro parent g hg j hj
    rw [hg.children] at hj
    exact List.mem_map.mp hj
  induction hi with
  | part hi =>
    obtain ⟨k, hk, hid⟩ := hpart h hi
    exact ⟨k, hk, k, k.self_mem_nodes, hid⟩
  | step _ hi ih =>
    obtain ⟨k, hk, g, hg, rfl⟩ := ih
    obtain ⟨_, hheld⟩ := (h.part hk).below hg
    obtain ⟨c, hc, hid⟩ := hpart hheld hi
    exact ⟨k, hk, c, Form.mem_nodes_of_part hg hc, hid⟩

/-- A tree is well formed if it represents readable forms whose parts have smaller identities. -/
theorem wellFormed_of_represents (h : t.Represents fs) (hreadable : ∀ f ∈ fs, f.Readable false)
    (hdescending : ∀ f ∈ fs, f.Descending) : t.WellFormed := by
  have hreached : ∀ i ∈ t.flatten, ∃ g parent inside, g.id = i ∧ t.Holds parent g ∧
      g.Readable inside ∧ ∀ k ∈ g.parts, k.id < g.id := by
    intro i hi
    obtain ⟨f, hf, g, hg, rfl⟩ := (mem_flatten_iff h).mp hi
    obtain ⟨parent, hheld⟩ := (h.holds f hf).below hg
    obtain ⟨inside, hg'⟩ := readable_of_mem_nodes (hreadable f hf) hg
    exact ⟨g, parent, inside, rfl, hheld, hg', hdescending f hf g hg⟩
  constructor
  case nodup => exact flatten_of_represents h ▸ h.nodup
  case stored =>
    intro i hi
    obtain ⟨g, parent, -, rfl, hheld, -, -⟩ := hreached i hi
    rw [contains, Std.TreeMap.contains_eq_isSome_getElem?, hheld.node]
    rfl
  case linked =>
    intro p hp i hi
    obtain ⟨g, parent, -, rfl, hheld, -, hsmaller⟩ := hreached p hp
    rw [hheld.children] at hi
    obtain ⟨k, hk, rfl⟩ := List.mem_map.mp hi
    exact ⟨(hheld.part hk).parent_eq, hsmaller k hk⟩
  case roots =>
    intro r hr
    rw [h.roots] at hr
    obtain ⟨f, hf, rfl⟩ := List.mem_map.mp hr
    exact (h.holds f hf).parent_eq
  case paired =>
    intro p hp ns items hshape
    obtain ⟨g, parent, inside, rfl, hheld, hg, -⟩ := hreached p hp
    rw [hheld.shape, Option.some.injEq] at hshape
    cases g with
    | seq l b parts =>
      obtain ⟨rfl, rfl⟩ : b = .map ns ∧ parts.map Form.id = items := by
        simpa [Form.shape, Shape.map] using hshape
      rw [countPaired_of_mirrors fun k hk => (hheld.items k hk).mirrors]
      exact (Form.readable_seq.mp hg).1.1
    | _ => simp [Form.shape, Shape.map] at hshape
  case bodies =>
    intro p hp s body hshape
    obtain ⟨g, parent, inside, rfl, hheld, hg, -⟩ := hreached p hp
    rw [hheld.shape, Option.some.injEq] at hshape
    cases g with
    | prefixed l s' k =>
      obtain ⟨rfl, rfl⟩ : s' = s ∧ k.id = body := by
        simpa [Form.shape, Shape.map] using hshape
      refine ⟨_, (hheld.part List.mem_cons_self).shape, ?_⟩
      rw [Shape.isSemantic_map]
      exact (Form.readable_prefixed.mp hg).1
    | _ => simp [Form.shape, Shape.map] at hshape
  case unnested =>
    intro p hp hfn i hi
    obtain ⟨g, parent, inside, rfl, hheld, hg, -⟩ := hreached p hp
    obtain ⟨k, hk, c, hc, rfl⟩ := hheld.below_part hi
    obtain ⟨_, hbelow⟩ := (hheld.part hk).below hc
    obtain ⟨l, items, rfl⟩ := hheld.isFnLiteral.mp hfn
    have hinside := Form.readable_true_of_mem_nodes ((Form.readable_seq.mp hg).2 k hk) hc
    -- Inside a function literal no other can be read.
    rw [← Bool.not_eq_true, hbelow.isFnLiteral]
    rintro ⟨l', items', rfl⟩
    exact absurd (Form.readable_seq.mp hinside).1 (by simp [Bracket.Encloses])

/-- The tree of a source is well formed, and the transforms leave it so. -/
theorem wellFormed_of_read {options : Reader.Options} {source : String} {d : Reader.Document}
    (h : Reader.read options source = .ok d) :
    (ofDocument d).WellFormed ∧
      ∀ enabled, ∃ t', (ofDocument d).rearrange enabled = .ok t' ∧ t'.WellFormed := by
  have htree := represents_ofDocument h
  have hreadable := Reader.readable_of_read h
  have hdescending : ∀ f ∈ d.roots, f.Descending :=
    fun f hf => Form.descending_of_built (Reader.built_of_read h f hf).1
  refine ⟨wellFormed_of_represents htree hreadable hdescending, fun enabled => ?_⟩
  obtain ⟨t', hok, hafter⟩ := represents_rearrange htree enabled
  exact ⟨t', hok, wellFormed_of_represents hafter (Transform.readable_applyAll enabled hreadable)
    (Transform.descending_applyAll enabled hdescending)⟩

/-- A function literal with a map in it, a quote over a line break, and trailing and blank lines
that the transforms drop. -/
theorem wellFormed_of_read_definition :
    ∃ d, Reader.read .everything "(defn f\n [x] #(g \x7b:a %\x7d\n)\n)\n\n\n\n'\ny" = .ok d ∧
      (ofDocument d).WellFormed ∧
      ∀ enabled, ∃ t', (ofDocument d).rearrange enabled = .ok t' ∧ t'.WellFormed := by
  have hread : ∃ d,
      Reader.read .everything "(defn f\n [x] #(g \x7b:a %\x7d\n)\n)\n\n\n\n'\ny" = .ok d := ⟨_, rfl⟩
  obtain ⟨d, hread⟩ := hread
  exact ⟨d, hread, wellFormed_of_read hread⟩

end Tree

end CljFormat
