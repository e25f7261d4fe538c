/-
CljFormat.Proofs.Layout.Threading — which lists are threaded into.

Whether a list passes its value to one of its items depends on whether it is threaded into itself,
for then its receivers start one item earlier. The marks answer this while they are still being
made. They may, since only the form around a list can mark it (`threaded_addCall_iff`), and that
form comes first: what is known of a list when its own turn comes is what will be known of it in the
end.

So the finished marks satisfy the equation that defines them: a list is marked exactly if the list
around it passes its value to it, given whether that one is marked (`threaded_iff`).
-/
import CljFormat.Proofs.Layout.Scope
import CljFormat.Proofs.Transform
import CljFormat.Proofs.Tree.Frame

namespace CljFormat.Layout

variable {table : IndentTable} {i : Nat} {f g : Form Label} {items roots : List (Form Label)}

/-! ## 1. One list -/

theorem threadsInto_iff {style : ThreadFirst} {start j : Nat} :
    threadsInto style start j = true ↔
      start ≤ j ∧ (style = .normal ∨ (j - start) % 2 = 1) := by
  cases style <;> simp [threadsInto]

/-- The items that a threading form passes its value to, by their places among its code. -/
theorem mem_receivers_iff {style : ThreadFirst} {start : Nat} :
    i ∈ receivers style start items ↔
      ∃ j l inner, (items.filter Form.isSemantic)[j]? = some (.seq l .list inner) ∧ l.id = i ∧
        start ≤ j ∧ (style = .normal ∨ (j - start) % 2 = 1) := by
  have hlist : ∀ g : Form Label,
      g.shape.list?.isSome = true ↔ ∃ l inner, g = .seq l .list inner := by
    intro g
    simp only [Option.isSome_iff_exists, Form.list?_eq_some_iff]
    exact exists_comm
  simp only [receivers, List.mem_map, List.mem_filter, Prod.exists, List.mk_mem_zipIdx_iff_getElem?,
    Bool.and_eq_true, hlist, threadsInto_iff]
  constructor
  · rintro ⟨g, j, ⟨hitem, ⟨l, inner, rfl⟩, hj⟩, rfl⟩
    exact ⟨j, l, inner, hitem, rfl, hj⟩
  · rintro ⟨j, l, inner, hitem, rfl, hj⟩
    exact ⟨_, j, ⟨hitem, ⟨l, inner, rfl⟩, hj⟩, rfl⟩

/-- A list passes its value to the list `i` among its items. Its own value may come from a form
around it. -/
def PassesTo (table : IndentTable) (nested : Bool) (f : Form Label) (i : Nat) : Prop :=
  ∃ head items style, f.call? = some (head, items) ∧ table.threadFirst? head = some style ∧
    i ∈ receivers style (if nested then 1 else 2) items

theorem threaded_addCall_iff (m : Marks) (f : Form Label) :
    (m.addCall table f).threaded.contains i = true ↔
      m.threaded.contains i = true ∨ PassesTo table (m.threaded.contains f.id) f i := by
  unfold Marks.addCall PassesTo
  cases hcall : f.call? with
  | none => simp
  | some call =>
    obtain ⟨head, items⟩ := call
    cases hstyle : table.threadFirst? head with
    | none => simp [hstyle]
    | some style => simp [hstyle, Std.TreeSet.contains_insertMany_list, Form.id]

/-! ## 2. All of a source -/

mutual

/-- What is marked behind a form was marked before, or the form or one below it passes its value
there. Whether that one gets its own value from elsewhere is answered by the finished marks. -/
theorem threaded_add_iff (m : Marks) : ∀ f : Form Label, f.ids.Nodup →
    ((m.add table f).threaded.contains i = true ↔ m.threaded.contains i = true ∨
      ∃ g ∈ f.nodes, PassesTo table ((m.add table f).threaded.contains g.id) g i)
  | .atom l x, _ => by simp [Marks.add, PassesTo, Form.call?, Form.shape, Shape.list?]
  | .prefixed l s body, h => by
    have hbody := threaded_add_iff m body (List.nodup_cons.mp h).2
    rw [Marks.add, hbody, Form.nodes_prefixed, List.exists_mem_cons_iff]
    simp [PassesTo, Form.call?, Form.shape, Shape.list?]
  | .seq l b items, h => by
    rw [Form.ids_seq, List.nodup_cons] at h
    have hitems := threaded_addAll_iff (m.addCall table (.seq l b items)) items h.2
    -- Nothing below the list marks the list itself.
    have hself : ((m.addCall table (.seq l b items)).addAll table items).threaded.contains l.id
        = m.threaded.contains l.id :=
      ((marks_addCall m h.1).trans (marks_addAll _ items h.1)).threaded
    rw [Marks.add, hitems, threaded_addCall_iff, Form.nodes_seq, List.exists_mem_cons_iff, or_assoc,
      Form.id_seq, hself]

theorem threaded_addAll_iff (m : Marks) : ∀ fs : List (Form Label), (fs.flatMap Form.ids).Nodup →
    ((m.addAll table fs).threaded.contains i = true ↔ m.threaded.contains i = true ∨
      ∃ g ∈ fs.flatMap Form.nodes, PassesTo table ((m.addAll table fs).threaded.contains g.id) g i)
  | [], _ => by simp [Marks.addAll]
  | f :: fs, h => by
    rw [List.flatMap_cons, List.nodup_append] at h
    obtain ⟨hf, hfs, hdisjoint⟩ := h
    have hfirst := threaded_add_iff m f hf
    -- What the first form marks is not marked again behind it.
    have hsame : ∀ g ∈ f.nodes, ((m.add table f).addAll table fs).threaded.contains g.id
        = (m.add table f).threaded.contains g.id := by
      intro g hg
      have hid : g.id ∈ f.ids := List.mem_map_of_mem hg
      exact (marks_addAll _ fs fun hmem => hdisjoint _ hid _ hmem rfl).threaded
    have hnodes : (∃ g ∈ f.nodes,
          PassesTo table (((m.add table f).addAll table fs).threaded.contains g.id) g i) ↔
        ∃ g ∈ f.nodes, PassesTo table ((m.add table f).threaded.contains g.id) g i :=
      exists_congr fun g => and_congr_right fun hg => by rw [hsame g hg]
    rw [Marks.addAll, threaded_addAll_iff _ fs hfs, hfirst, List.flatMap_cons, or_assoc, ← hnodes]
    simp only [List.mem_append, or_and_right, exists_or]

end

end CljFormat.Layout

namespace CljFormat

open Layout (Context PassesTo mem_receivers_iff)

variable {options : Reader.Options} {source : String} {d : Reader.Document}

/-- No two forms of a source have the same identity, nor do they once its line breaks are
rearranged. -/
theorem nodup_ids_applyAll (h : Reader.read options source = .ok d) (enabled : List Transform) :
    ((Transform.applyAll enabled d.roots).flatMap Form.ids).Nodup :=
  Tree.nodup_of_subperm (Transform.subperm_ids_applyAll enabled d.roots)
    (Tree.represents_ofDocument h).nodup

/-- The place of the first item that the list with the label `l` may pass its value to. If the list
is threaded into, it has lost its first argument to the form around it. -/
def firstReceiver (marked : Layout.IdSet) (l : Label) : Nat :=
  if marked.contains l.id then 1 else 2

/-- The list `i` is part of a list with a threading symbol in front, in a place that this one passes
its value to. Places count from the head, comments and line breaks apart. -/
def ThreadedInto (table : IndentTable) (marked : Layout.IdSet) (roots : List (Form Label))
    (i : NodeId) : Prop :=
  ∃ l k name later style, .seq l .list (.atom k (.symbol name) :: later) ∈ Form.nodesAll roots ∧
    table.threadFirst? name = some style ∧
    ∃ j m inner, ((Form.atom k (.symbol name) :: later).filter Form.isSemantic)[j]?
        = some (.seq m .list inner) ∧ m.id = i ∧
      firstReceiver marked l ≤ j ∧ (style = .normal ∨ (j - firstReceiver marked l) % 2 = 1)

/-- The marked lists of a source are those that are threaded into, if the marks themselves say which
lists have lost their first argument. -/
theorem threaded_iff (h : Reader.read options source = .ok d) (table : IndentTable)
    (enabled : List Transform) (i : NodeId) :
    let roots := Transform.applyAll enabled d.roots
    let marked := (Context.ofRoots table roots).marks.threaded
    marked.contains i = true ↔ ThreadedInto table marked roots i := by
  intro roots marked
  have hmarked : marked.contains i = true ↔
      ∃ f ∈ Form.nodesAll roots, PassesTo table (marked.contains f.id) f i := by
    rw [Form.nodesAll_eq_flatMap]
    exact (Layout.threaded_addAll_iff {} roots (nodup_ids_applyAll h enabled)).trans
      (or_iff_right (by simp))
  rw [hmarked]
  constructor
  · rintro ⟨f, hf, name, items, style, hcall, hstyle, hreceives⟩
    obtain ⟨l, k, later, rfl, rfl⟩ := Form.call?_eq_some_iff.mp hcall
    exact ⟨l, k, name, later, style, hf, hstyle, mem_receivers_iff.mp hreceives⟩
  · rintro ⟨l, k, name, later, style, hf, hstyle, hreceives⟩
    exact ⟨_, hf, name, _, style, Form.call?_eq_some_iff.mpr ⟨l, k, later, rfl, rfl⟩, hstyle,
      mem_receivers_iff.mpr hreceives⟩

/-- The inner form in `(-> x (cond-> a (b) c (d)))` gets its value from the outer one, so its pairs
start one item earlier. That makes `(b)` the second of a pair. -/
theorem threaded_iff_nested :
    ∃ d l k, Reader.read .everything "(-> x (cond-> a (b) c (d)))" = .ok d ∧
      .seq l .list [.atom k (.symbol "b")] ∈ Form.nodesAll d.roots ∧
      ThreadedInto {} (Context.ofRoots {} d.roots).marks.threaded d.roots l.id := by
  have hread : ∃ d l k, Reader.read .everything "(-> x (cond-> a (b) c (d)))" = .ok d ∧
      .seq l .list [.atom k (.symbol "b")] ∈ Form.nodesAll d.roots ∧
      (Context.ofRoots {} d.roots).marks.threaded.contains l.id = true := by
    refine ⟨_, _, _, rfl, @List.mem_of_getElem? _ _ 6 _ rfl, ?_⟩
    decide
  obtain ⟨d, l, k, hread, hb, hmarked⟩ := hread
  have hiff := threaded_iff hread {} [] l.id
  rw [Transform.applyAll_nil] at hiff
  exact ⟨d, l, k, hread, hb, hiff.mp hmarked⟩

end CljFormat
