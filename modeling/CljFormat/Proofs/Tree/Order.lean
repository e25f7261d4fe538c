/-
CljFormat.Proofs.Tree.Order — the order in which a tree is gone through.

Nodes may be shared, and an edit can make a node part of itself. Where no node that is reached is
below itself, a recursion that takes each node before its parts comes to an end (`Tree.Preorder`),
and `flatten` and `outline` both give what it gives: the one the nodes, the other a line for each
node at its depth.

Two inductions carry this. One is on what the recursion does, and relates it to a stack: what is on
the stack below the nodes in question stays there until they are done (`Tree.Preorder.loop`). The
other is on the depth to which a node is unfolded: the nodes above it are all different, so there is
depth left for each node that was not gone through (`Tree.exists_mirror`).

In the tree of a source, the order is also that of the places of nodes, by the trail that the reader
keeps.
-/
import CljFormat.Proofs.Reader.Trail
import CljFormat.Proofs.Tree.Closed

namespace CljFormat

namespace Tree

variable {t : Tree} {depth : Nat} {ids : List NodeId} {id : NodeId}
  {out : List (Nat × NodeId)} {f : Form Label} {fs : List (Form Label)}

/-! ## 1. Recursion and stack -/

/-- The nodes `ids` at `depth` and the nodes below them, each before its parts and with its
depth. -/
inductive Preorder (t : Tree) : (depth : Nat) → List NodeId → List (Nat × NodeId) → Prop
  | nil (depth : Nat) : Preorder t depth [] []
  | cons {depth : Nat} {id : NodeId} {rest : List NodeId} {below later : List (Nat × NodeId)} :
      Preorder t (depth + 1) (t.children id) below → Preorder t depth rest later →
      Preorder t depth (id :: rest) ((depth, id) :: (below ++ later))

/-- Going through nodes with a stack whose top is at its end: as long as there is one, the topmost
node is met and makes room for its parts, the first of them on top. `out` is what was met when the
stack is empty. -/
inductive Loop (t : Tree) : (stack met out : List NodeId) → Prop
  | done (met : List NodeId) : Loop t [] met met
  | round {stack met out : List NodeId} {id : NodeId} :
      Loop t (stack ++ (t.children id).reverse) (met ++ [id]) out →
      Loop t (stack ++ [id]) met out

/-- The recursion has one result. -/
theorem Preorder.unique {out' : List (Nat × NodeId)} (h : t.Preorder depth ids out)
    (h' : t.Preorder depth ids out') : out' = out := by
  induction h generalizing out' with
  | nil depth =>
    cases h'
    rfl
  | cons _ _ ihbelow ihlater =>
    cases h' with
    | cons hbelow hlater => rw [ihbelow hbelow, ihlater hlater]

/-- The stack has one result. -/
theorem Loop.unique {stack met final final' : List NodeId} (h : t.Loop stack met final)
    (h' : t.Loop stack met final') : final' = final := by
  generalize hsame : stack = stack' at h'
  induction h generalizing stack' with
  | done met =>
    cases h' with
    | done => rfl
    | round _ => simp at hsame
  | round _ ih =>
    cases h' with
    | done => simp at hsame
    | round hnext =>
      obtain ⟨rfl, rfl⟩ := List.append_singleton_inj.mp hsame
      exact ih _ rfl hnext

/-- What is on the stack below some nodes stays there until the recursion over them is done. -/
theorem Preorder.loop (h : t.Preorder depth ids out) {stack met final : List NodeId}
    (hrest : t.Loop stack (met ++ out.map Prod.snd) final) :
    t.Loop (stack ++ ids.reverse) met final := by
  induction h generalizing stack met with
  | nil depth => simpa using hrest
  | cons _ _ ihbelow ihlater =>
    rw [List.reverse_cons, ← List.append_assoc]
    refine .round (ihbelow (ihlater ?_))
    simpa using hrest

/-! ## 2. Forms that mirror nodes -/

/-- A node is described as the form that mirrors it. -/
theorem Mirrors.describe (h : t.Mirrors f) : t.describe f.id = f.describe := by
  have hsemantic : t.countSemantic (f.parts.map Form.id) = f.parts.countP Form.isSemantic :=
    countShapes_of_mirrors Shape.isSemantic_map fun g hg => h.part hg
  have hpaired : t.countPaired (f.parts.map Form.id) = f.parts.countP Form.isPaired :=
    countPaired_of_mirrors fun g hg => h.part hg
  rw [Tree.describe, Form.describe, h.children, hsemantic, hpaired, h.shape]
  cases f <;> rfl

/-- The lines of the nodes in `out`. -/
def lines (t : Tree) (out : List (Nat × NodeId)) : String :=
  String.join (out.map fun (depth, id) => outlineLine depth (t.describe id))

/-- Going through `fs` at `depth` gives the nodes in `out` and their lines. -/
structure Shows (t : Tree) (depth : Nat) (fs : List (Form Label)) (out : List (Nat × NodeId)) :
    Prop where
  preorder : t.Preorder depth (fs.map Form.id) out
  ids : out.map Prod.snd = fs.flatMap Form.ids
  outline : Form.outlineAll depth fs = t.lines out

theorem Shows.cons {rest : List (Form Label)} {below later : List (Nat × NodeId)}
    (hf : t.Mirrors f) (hbelow : t.Shows (depth + 1) f.parts below)
    (hlater : t.Shows depth rest later) :
    t.Shows depth (f :: rest) ((depth, f.id) :: (below ++ later)) := by
  have houtline : f.outline depth
      = outlineLine depth f.describe ++ Form.outlineAll (depth + 1) f.parts := by
    cases f <;> simp [Form.outline, Form.outlineAll, Form.parts, Form.shape, Shape.parts]
  refine ⟨.cons (hf.children ▸ hbelow.preorder) hlater.preorder, ?_, ?_⟩
  · rw [List.map_cons, List.map_append, hbelow.ids, hlater.ids, List.flatMap_cons, f.ids_eq_cons,
      List.cons_append]
  · rw [Form.outlineAll, houtline, hbelow.outline, hlater.outline, ← hf.describe, lines, lines,
      lines, List.map_cons, List.map_append, String.join_cons, String.join_append,
      String.append_assoc]

/-- Mirrored forms are gone through to their end if their parts are. -/
theorem exists_shows_of_parts (h : ∀ f ∈ fs, t.Mirrors f)
    (hparts : ∀ f ∈ fs, ∃ below, t.Shows (depth + 1) f.parts below) :
    ∃ out, t.Shows depth fs out := by
  induction fs with
  | nil => exact ⟨[], .nil depth, rfl, rfl⟩
  | cons f rest ih =>
    obtain ⟨hf, hrest⟩ := List.forall_mem_cons.mp h
    obtain ⟨⟨below, hbelow⟩, hpartsrest⟩ := List.forall_mem_cons.mp hparts
    obtain ⟨later, hlater⟩ := ih hrest hpartsrest
    exact ⟨_, .cons hf hbelow hlater⟩

theorem Mirrors.exists_shows_parts (h : t.Mirrors f) :
    ∀ depth, ∃ below, t.Shows depth f.parts below := by
  induction f using Form.inductParts with
  | step f ih =>
    intro depth
    exact exists_shows_of_parts (fun g hg => h.part hg)
      fun g hg => ih g hg (h.part hg) (depth + 1)

theorem exists_shows (h : ∀ f ∈ fs, t.Mirrors f) (depth : Nat) : ∃ out, t.Shows depth fs out :=
  exists_shows_of_parts h fun f hf => (h f hf).exists_shows_parts (depth + 1)

/-! ## 3. Unfolding a tree without cycles -/

/-- If each of some nodes unfolds to a form that mirrors it, then none of them is left out. -/
theorem exists_mirrors {unfold : NodeId → Option (Form Label)} {ids : List NodeId}
    (h : ∀ id ∈ ids, ∃ f, unfold id = some f ∧ f.id = id ∧ t.Mirrors f) :
    (ids.filterMap unfold).map Form.id = ids ∧ ∀ f ∈ ids.filterMap unfold, t.Mirrors f := by
  induction ids with
  | nil => simp
  | cons id rest ih =>
    obtain ⟨⟨f, hf, hid, hmirrors⟩, hrest⟩ := List.forall_mem_cons.mp h
    obtain ⟨hids, hall⟩ := ih hrest
    rw [List.filterMap_cons_some hf, List.map_cons, hid, hids, List.forall_mem_cons]
    exact ⟨rfl, hmirrors, hall⟩

/-- A node unfolds to a form that mirrors it if its parts do. -/
theorem exists_mirror_of_parts {node : Node} (hnode : t.nodes[id]? = some node)
    (hparts : ∀ i ∈ t.children id, ∃ f, t.unfold depth i = some f ∧ f.id = i ∧ t.Mirrors f) :
    ∃ f, t.unfold (depth + 1) id = some f ∧ f.id = id ∧ t.Mirrors f := by
  obtain ⟨pos, shape, parent⟩ := node
  have hshape : t.shape? id = some shape := by rw [shape?, hnode]; rfl
  have hchildren : t.children id = shape.parts := by rw [Tree.children, hshape]; rfl
  rw [hchildren] at hparts
  rw [unfold, hnode]
  cases shape with
  | atom x => exact ⟨_, rfl, rfl, mirrors_iff.mpr ⟨hshape, fun g hg => absurd hg List.not_mem_nil⟩⟩
  | prefixed s body =>
    obtain ⟨f, hf, rfl, hmirrors⟩ := hparts body List.mem_cons_self
    refine ⟨.prefixed ⟨id, pos⟩ s f, by simp [hf], rfl, mirrors_iff.mpr ⟨hshape, ?_⟩⟩
    exact List.forall_mem_singleton.mpr hmirrors
  | seq b items =>
    rw [Shape.parts] at hparts
    obtain ⟨hids, hall⟩ := exists_mirrors hparts
    refine ⟨.seq ⟨id, pos⟩ b (items.filterMap (t.unfold depth)), rfl, rfl,
      mirrors_iff.mpr ⟨?_, hall⟩⟩
    rw [Form.id_seq, hshape, Form.shape, Shape.map, hids]

/-- A node that is reached unfolds to a form that mirrors it. It and the nodes `above` it are all
different, for none is below itself, and so the depth to go makes up for those that were gone
through. -/
theorem exists_mirror (hclosed : t.Closed) (hacyclic : t.Acyclic) (above : List NodeId)
    (hid : t.Reached id) (habove : ∀ a ∈ above, t.Reached a ∧ t.Below a id)
    (hnodup : (id :: above).Nodup) (hdepth : t.size ≤ above.length + depth) :
    ∃ f, t.unfold depth id = some f ∧ f.id = id ∧ t.Mirrors f := by
  induction depth generalizing id above with
  | zero =>
    have hreached : ∀ a ∈ id :: above, t.Reached a :=
      List.forall_mem_cons.mpr ⟨hid, fun a ha => (habove a ha).1⟩
    have hrange : (id :: above) ⊆ List.range t.size := fun a ha =>
      List.mem_range.mpr (hclosed.bounded a (hclosed.contains_of_reached (hreached a ha)))
    have hlength := hnodup.length_le_of_subset hrange
    rw [List.length_range, List.length_cons] at hlength
    exact absurd (Nat.le_trans hlength hdepth) (Nat.not_succ_le_self _)
  | succ depth ih =>
    have hpart : ∀ i ∈ t.children id, ∃ f, t.unfold depth i = some f ∧ f.id = i ∧ t.Mirrors f := by
      intro i hi
      have hbelow : ∀ a ∈ id :: above, t.Reached a ∧ t.Below a i :=
        List.forall_mem_cons.mpr ⟨⟨hid, .part hi⟩,
          fun a ha => ⟨(habove a ha).1, .step (habove a ha).2 hi⟩⟩
      have hfresh : i ∉ id :: above := fun hmem => hacyclic i (hid.part hi) (hbelow i hmem).2
      refine ih (id :: above) (hid.part hi) hbelow (List.nodup_cons.mpr ⟨hfresh, hnodup⟩) ?_
      rw [List.length_cons]
      omega
    obtain ⟨node, hnode⟩ :=
      Option.isSome_iff_exists.mp (contains_eq t id ▸ hclosed.contains_of_reached hid)
    exact exists_mirror_of_parts hnode hpart

/-- The roots unfold to forms that mirror them. -/
theorem mirrors_forms (hclosed : t.Closed) (hacyclic : t.Acyclic) :
    t.forms.map Form.id = t.roots ∧ ∀ f ∈ t.forms, t.Mirrors f := by
  refine exists_mirrors fun r hr => exists_mirror hclosed hacyclic [] (.inl hr) (by simp)
    (List.nodup_singleton r) ?_
  rw [List.length_nil, Nat.zero_add]

/-! ## 4. Places -/

/-- The place of a node. -/
def pos? (t : Tree) (id : NodeId) : Option Position :=
  t.nodes[id]?.map Node.pos

/-- The nodes of the tree of a source are at the places of its forms. -/
theorem places_of_read {options : Reader.Options} {source : String} {d : Reader.Document}
    (h : Reader.read options source = .ok d) :
    (ofDocument d).flatten.map (ofDocument d).pos? = (Reader.placesOf d.roots).map some := by
  have htree := represents_ofDocument h
  rw [flatten_of_represents htree, Form.flatMap_ids, Reader.placesOf, List.map_map, List.map_map]
  refine List.map_congr_left fun g hg => ?_
  rw [Form.nodesAll_eq_flatMap] at hg
  obtain ⟨f, hf, hg⟩ := List.mem_flatMap.mp hg
  obtain ⟨parent, hheld⟩ := (htree.holds f hf).below hg
  rw [Function.comp_apply, pos?, hheld.node]
  rfl

/-! ## 5. The order of a tree -/

/-- In a closed tree without cycles, nodes shared or not, the recursion over the roots ends with one
result, and so does the stack. `flatten` gives its nodes, and `outline` a line for each of them, two
spaces deeper for each level. Edits keep a tree closed. The tree of a source is closed and has no
cycles, and its nodes in this order ascend in the source. -/
theorem flatten_preorder :
    (∀ t : Tree, t.Closed → t.Acyclic → ∃ out : List (Nat × NodeId),
      (∀ out', t.Preorder 0 t.roots out' ↔ out' = out) ∧
      (∀ met, t.Loop t.roots.reverse [] met ↔ met = out.map Prod.snd) ∧
      t.flatten = out.map Prod.snd ∧
      t.outline = String.join (out.map fun (depth, id) =>
        String.ofList (List.replicate (2 * depth) ' ') ++ t.describe id ++ "\n")) ∧
    (∀ (h : History) (es : List Edit), h.tree.Closed → KnownAll h es →
      (es.foldl History.take h).tree.Closed) ∧
    ∀ options source d, Reader.read options source = .ok d →
      (ofDocument d).Closed ∧ (ofDocument d).Acyclic ∧
      ∃ places : List Position, (ofDocument d).flatten.map (ofDocument d).pos? = places.map some ∧
        places.Pairwise (·.offset < ·.offset) := by
  refine ⟨fun t hclosed hacyclic => ?_, fun h es => closed_foldl, fun options source d h => ?_⟩
  · obtain ⟨hids, hmirrors⟩ := mirrors_forms hclosed hacyclic
    obtain ⟨out, hshows⟩ := exists_shows hmirrors 0
    have hpreorder : t.Preorder 0 t.roots out := hids ▸ hshows.preorder
    have hloop : t.Loop ([] ++ t.roots.reverse) [] (out.map Prod.snd) := hpreorder.loop (.done _)
    refine ⟨out, fun out' => ⟨hpreorder.unique, ?_⟩, fun met => ⟨hloop.unique, ?_⟩, ?_,
      hshows.outline⟩
    · rintro rfl
      exact hpreorder
    · rintro rfl
      exact hloop
    · rw [flatten, ← hids, visit_of_mirrors hmirrors (sizeAll_eq_length t.forms).symm, hshows.ids]
  · obtain ⟨hclosed, hacyclic⟩ := closed_of_read h
    exact ⟨hclosed, hacyclic, _, places_of_read h, Reader.ascending_of_read h⟩

/-- A symbol that is part of a vector twice and under a quote besides, and a source with a
namespaced map, a discarded form and an unquote over a comment. -/
theorem flatten_preorder_shared :
    let es : List Edit :=
      [.alloc .start (.atom (.symbol "a")), .alloc .start (.prefixed .quote 0),
        .alloc .start (.seq .vector [0, 1, 0]), .setRoots [2, 1]]
    let t := (replay es).tree
    (t.Closed ∧ t.Acyclic ∧ t.flatten = [2, 0, 1, 0, 0, 1, 0] ∧
      t.outline = "vector(length=3)\n  sym(a)\n  quote\n    sym(a)\n  sym(a)\nquote\n  sym(a)\n" ∧
      ∃ out : List (Nat × NodeId), (∀ out', t.Preorder 0 t.roots out' ↔ out' = out) ∧
        t.flatten = out.map Prod.snd) ∧
    ∃ d, Reader.read { ignoreReaderDiscard := true } "#:a\x7b:b #_x 'c\x7d ~\n;x\n@d" = .ok d ∧
      (ofDocument d).flatten = [5, 0, 4, 3, 11, 10, 9] ∧
      ∃ places : List Position, (ofDocument d).flatten.map (ofDocument d).pos? = places.map some ∧
        places.Pairwise (·.offset < ·.offset) := by
  intro es t
  have hclosed : t.Closed := flatten_preorder.2.1 {} es closed_empty (by decide)
  have hsmaller : ∀ p < t.size, ∀ i ∈ t.children p, i < p := by decide
  have hacyclic : t.Acyclic := acyclic_of_descending fun p hp =>
    hsmaller p (hclosed.bounded p (hclosed.contains_of_reached hp))
  obtain ⟨out, hout, -, hflatten, -⟩ := flatten_preorder.1 t hclosed hacyclic
  have hread : ∃ d, Reader.read { ignoreReaderDiscard := true }
      "#:a\x7b:b #_x 'c\x7d ~\n;x\n@d" = .ok d ∧
        (ofDocument d).flatten = [5, 0, 4, 3, 11, 10, 9] := ⟨_, rfl, rfl⟩
  obtain ⟨d, hd, hids⟩ := hread
  exact ⟨⟨hclosed, hacyclic, by decide, by decide +kernel, out, hout, hflatten⟩, d, hd, hids,
    (flatten_preorder.2.2 _ _ d hd).2.2⟩

end Tree

end CljFormat
