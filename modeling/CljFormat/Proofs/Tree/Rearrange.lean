/-
CljFormat.Proofs.Tree.Rearrange — rearranging a tree rearranges the forms that it represents.

The transforms are given twice: as functions on forms, and as edits of a tree that may be refused.
Here the two are shown to be the same. No edit is refused, and the tree that comes of it represents
the rearranged forms (`represents_rearrange`), so whatever is known of the forms holds of the tree.

A transform that looks at the kinds of items only can be carried out on items whose parts are cut
off, which is all that one node of a tree shows (`Arrangement.natural`). And a transform that puts
every item back at most once never makes a node part of two others (`Arrangement.subperm`).
-/
import CljFormat.Proofs.Transform
import CljFormat.Proofs.Tree.Edit
import Mathlib.Data.List.Flatten

namespace CljFormat

/-! ## 1. Kinds -/

/-- One level of a form with its parts left out. -/
def Shape.head {β : Type} : Shape β → Shape Unit
  | atom x => atom x
  | prefixed s _ => prefixed s ()
  | seq b _ => seq b []

namespace Form

variable {α β : Type} {f : Form α} {g : Form β}

/-- Forms of one kind differ in their annotations and in what is below them. -/
theorem cases_of_head (h : g.shape.head = f.shape.head) :
    (∃ note note' x, f = .atom note x ∧ g = .atom note' x) ∨
      (∃ note note' s body body', f = .prefixed note s body ∧ g = .prefixed note' s body') ∨
      ∃ note note' b items items', f = .seq note b items ∧ g = .seq note' b items' := by
  cases f <;> cases g <;> simp_all [shape, Shape.head]

theorem head_of_bare (h : g.bare = f.bare) : g.shape.head = f.shape.head := by
  cases f <;> cases g <;> simp_all [shape, Shape.head]

end Form

namespace Transform

variable {α β : Type}

/-- A rearrangement of items that looks at their kinds only, puts each item back at most once, and
loses nothing but line breaks. -/
structure Arrangement (edit : ∀ {α : Type}, List (Form α) → List (Form α)) : Prop where
  natural : ∀ {α β : Type} (k : Form α → Form β), (∀ f, (k f).shape.head = f.shape.head) →
    ∀ fs, edit (fs.map k) = (edit fs).map k
  subperm : ∀ {α : Type} (fs : List (Form α)), List.Subperm (edit fs) fs
  code : ∀ {α : Type} (fs : List (Form α)), withoutBreaks (edit fs) = withoutBreaks fs

section kinds

variable {f : Form α} {g : Form β} (h : g.shape.head = f.shape.head)

include h

theorem isNewline_of_head : g.isNewline = f.isNewline := by
  have hhead : ∀ {γ : Type} (s : Shape γ), s.head.isNewline = s.isNewline := by
    intro γ s
    cases s with
    | atom x => cases x <;> rfl
    | _ => rfl
  rw [Form.isNewline, ← hhead, h, hhead, Form.isNewline]

theorem isComment_of_head : g.isComment = f.isComment := by
  have hhead : ∀ {γ : Type} (s : Shape γ), s.head.isComment = s.isComment := by
    intro γ s
    cases s with
    | atom x => cases x <;> rfl
    | _ => rfl
  rw [Form.isComment, ← hhead, h, hhead, Form.isComment]

theorem vector_of_head : g.shape.vector?.isSome = f.shape.vector?.isSome := by
  have hhead : ∀ {γ : Type} (s : Shape γ), s.head.vector?.isSome = s.vector?.isSome := by
    intro γ s
    cases s with
    | seq b items => cases b <;> rfl
    | _ => rfl
  rw [← hhead, h, hhead]

theorem keyword_of_head : g.shape.keyword?.isSome = f.shape.keyword?.isSome := by
  have hhead : ∀ {γ : Type} (s : Shape γ), s.head.keyword?.isSome = s.keyword?.isSome := by
    intro γ s
    cases s with
    | atom x => cases x <;> rfl
    | _ => rfl
  rw [← hhead, h, hhead]

end kinds

/-! ## 2. The four rearrangements of items -/

theorem sublist_dropLeadingBreaks (fs : List (Form α)) :
    List.Sublist (dropLeadingBreaks fs) fs := by
  fun_induction dropLeadingBreaks fs with
  | case1 => exact .slnil
  | case2 f h => exact List.nil_sublist _
  | case3 f h => exact .refl _
  | case4 f g rest h ih => exact ih.cons _
  | case5 f g rest h => exact .refl _

theorem arrangement_dropTrailingBreaks : Arrangement dropTrailingBreaks where
  natural k hk fs := by
    have hleading : ∀ gs, dropLeadingBreaks (gs.map k) = (dropLeadingBreaks gs).map k := by
      intro gs
      fun_induction dropLeadingBreaks gs with
      | case1 => rfl
      | case2 f h => simp [dropLeadingBreaks, isNewline_of_head (hk f), h]
      | case3 f h => simp [dropLeadingBreaks, isNewline_of_head (hk f), h]
      | case4 f g rest h ih =>
        rw [← ih, List.map_cons, List.map_cons, dropLeadingBreaks, isNewline_of_head (hk f),
          isComment_of_head (hk g), if_pos h]
      | case5 f g rest h =>
        rw [List.map_cons, List.map_cons, dropLeadingBreaks, isNewline_of_head (hk f),
          isComment_of_head (hk g), if_neg h]
    rw [dropTrailingBreaks, ← List.map_reverse, hleading, ← List.map_reverse, dropTrailingBreaks]
  subperm fs := by
    have hsub := (sublist_dropLeadingBreaks fs.reverse).reverse
    rw [List.reverse_reverse] at hsub
    exact hsub.subperm
  code := withoutBreaks_dropTrailingBreaks

theorem arrangement_collapse : Arrangement collapse where
  natural k hk fs := by
    have hafter : ∀ seen, collapseAfter seen (fs.map k) = (collapseAfter seen fs).map k := by
      induction fs with
      | nil => exact fun _ => rfl
      | cons f rest ih =>
        intro seen
        simp only [List.map_cons, collapseAfter, isNewline_of_head (hk f), ih]
        split
        · split <;> rfl
        · rfl
    exact hafter 0
  subperm fs := by
    have hafter : ∀ seen, List.Sublist (collapseAfter seen fs) fs := by
      intro seen
      fun_induction collapseAfter seen fs with
      | case1 => exact .slnil
      | case2 seen f rest h _ ih => exact ih.cons_cons _
      | case3 seen f rest h _ ih => exact ih.cons _
      | case4 seen f rest h ih => exact ih.cons_cons _
    exact (hafter 0).subperm
  code := withoutBreaks_collapse

theorem arrangement_raiseArglist : Arrangement raiseArglist where
  natural k hk fs := by
    match fs with
    | head :: name :: br :: args :: body :: rest =>
      simp only [List.map_cons, raiseArglist, isNewline_of_head (hk _), vector_of_head (hk _)]
      split <;> rfl
    | [] | [_] | [_, _] | [_, _, _] | [_, _, _, _] => rfl
  subperm fs := by
    fun_cases raiseArglist fs with
    | case1 head name br args body rest h =>
      exact (((List.Perm.swap br args (body :: rest)).cons name).cons head).subperm
    | case2 => exact .refl _
    | case3 => exact .refl _
  code := withoutBreaks_raiseArglist

theorem arrangement_raiseDispatch : Arrangement raiseDispatch where
  natural k hk fs := by
    match fs with
    | head :: name :: br :: value :: body :: rest =>
      simp only [List.map_cons, raiseDispatch, isNewline_of_head (hk _), keyword_of_head (hk _)]
      split
      · split <;> rfl
      · rfl
    | [] | [_] | [_, _] | [_, _, _] | [_, _, _, _] => rfl
  subperm fs := by
    fun_cases raiseDispatch fs with
    | case1 head name br value body rest h hbody =>
      exact (((List.sublist_cons_self br (value :: body :: rest)).cons_cons name).cons_cons
        head).subperm
    | case2 head name br value body rest h hbody =>
      exact (((List.Perm.swap br value (body :: rest)).cons name).cons head).subperm
    | case3 => exact .refl _
    | case4 => exact .refl _
  code := withoutBreaks_raiseDispatch

/-- Two items or fewer hold no blank lines to drop. -/
theorem collapse_of_length_le {fs : List (Form α)} (h : fs.length ≤ 2) : collapse fs = fs := by
  match fs with
  | [] => rfl
  | [f] => simp [collapse, collapseAfter]
  | [f, g] => cases hf : f.isNewline <;> simp [collapse, collapseAfter, hf]

end Transform

/-! ## 3. Looking at held forms -/

namespace Form

/-- A form whose parts are cut off, under its identity. -/
def stub : Form Label → Form NodeId
  | .atom l x => .atom l.id x
  | .prefixed l s body => .prefixed l.id s (.atom body.id .nil)
  | .seq l b _ => .seq l.id b []

theorem head_stub (f : Form Label) : f.stub.shape.head = f.shape.head := by
  cases f <;> rfl

theorem note_stub (f : Form Label) : f.stub.note = f.id := by
  cases f <;> rfl

end Form

namespace Tree

open Transform (Arrangement)

variable {t : Tree} {parent : Option NodeId} {f : Form Label} {fs : List (Form Label)}
  {edit : ∀ {α : Type}, List (Form α) → List (Form α)}

theorem Holds.stub (h : t.Holds parent f) : t.stub f.id = f.stub := by
  rw [Tree.stub, h.shape]
  cases f <;> rfl

/-- Nodes are rearranged as the forms that they stand for. -/
theorem arranged_of_holds (hedit : Arrangement edit) (h : ∀ f ∈ fs, t.Holds parent f) :
    t.arranged edit (fs.map Form.id) = (edit fs).map Form.id := by
  have hstubs : (fs.map Form.id).map t.stub = fs.map Form.stub := by
    rw [List.map_map]
    exact List.map_congr_left fun f hf => (h f hf).stub
  rw [arranged, hstubs, hedit.natural Form.stub Form.head_stub, List.map_map]
  exact List.map_congr_left fun f _ => f.note_stub

theorem Holds.isCallOf (h : t.Holds parent f) (name : String) :
    t.isCallOf name f.id = f.isCallOf name := by
  rw [Tree.isCallOf, h.shape]
  cases f with
  | atom l x => rfl
  | prefixed l s body => rfl
  | seq l b items =>
    cases b with
    | list =>
      cases items with
      | nil => rfl
      | cons head rest =>
        have hhead : t.shape? head.id = some (head.shape.map Form.id) :=
          (h.part List.mem_cons_self).shape
        have hsymbol : (head.shape.map Form.id).symbol? = head.shape.symbol? := by
          cases head with
          | atom l x => cases x <;> rfl
          | _ => rfl
        have hcall : Form.call? (.seq l .list (head :: rest))
            = head.shape.symbol?.bind fun name => some (name, head :: rest) := rfl
        have hlist : (some ((Form.seq l .list (head :: rest)).shape.map Form.id)).bind Shape.list?
            = some (head.id :: rest.map Form.id) := rfl
        rw [hlist, Form.isCallOf, hcall]
        dsimp only
        rw [hhead, Option.bind_some, hsymbol]
        cases head.shape.symbol? <;> rfl
    | _ => rfl

theorem Holds.items {l : Label} {b : Bracket} {items : List (Form Label)}
    (h : t.Holds parent (.seq l b items)) : ∀ g ∈ items, t.Holds (some l.id) g :=
  fun _ hg => h.part hg

theorem Holds.closesTight {l : Label} {b : Bracket} {items : List (Form Label)}
    (h : t.Holds parent (.seq l b items)) : t.closesTight l.id = Transform.closesTight b := by
  have hshape : t.shape? l.id = some (.seq b (items.map Form.id)) := h.shape
  rw [Tree.closesTight, hshape]

/-! ## 4. Edits of one node -/

theorem subperm_flatMap {items items' : List (Form Label)} (h : List.Subperm items' items) :
    List.Subperm (items'.flatMap Form.ids) (items.flatMap Form.ids) := by
  obtain ⟨ks, hperm, hsub⟩ := h
  exact ⟨ks.flatMap Form.ids, hperm.flatMap_right _, hsub.flatMap _⟩

/-- Rearranging the items of some sequences prunes. -/
theorem prunes_of_items {E : Form Label → Form Label}
    (h : ∀ f, E f = f ∨ ∃ l b items items', f = .seq l b items ∧ E f = .seq l b items' ∧
      List.Subperm items' items) : Prunes E where
  id f := by
    rcases h f with hsame | ⟨l, b, items, items', rfl, hseq, -⟩
    · rw [hsame]
    · rw [hseq]
      rfl
  ids f := by
    rcases h f with hsame | ⟨l, b, items, items', rfl, hseq, hsub⟩
    · rw [hsame]
    · rw [hseq, Form.ids_seq, Form.ids_seq, List.subperm_cons]
      exact subperm_flatMap hsub

/-- Pulls up the closing delimiter of a form, but of no form below it. -/
def tightened : Form Label → Form Label
  | .seq l b items =>
    .seq l b (if Transform.closesTight b then Transform.dropTrailingBreaks items else items)
  | f => f

/-- Leaves at most one blank line in a row among the items of a form, but not below them. -/
def thinned : Form Label → Form Label
  | .seq l b items => .seq l b (Transform.collapse items)
  | f => f

theorem prunes_tightened : Prunes tightened := by
  refine prunes_of_items fun f => ?_
  cases f with
  | seq l b items =>
    refine .inr ⟨l, b, items, _, rfl, rfl, ?_⟩
    split
    · exact Transform.arrangement_dropTrailingBreaks.subperm items
    · exact .refl _
  | _ => exact .inl rfl

theorem prunes_thinned : Prunes thinned := by
  refine prunes_of_items fun f => ?_
  cases f with
  | seq l b items =>
    exact .inr ⟨l, b, items, _, rfl, rfl, Transform.arrangement_collapse.subperm items⟩
  | _ => exact .inl rfl

theorem prunes_editCallOf (hedit : Arrangement edit) (name : String) :
    Prunes (Transform.editCallOf name edit) := by
  refine prunes_of_items fun f => ?_
  unfold Transform.editCallOf
  split
  · split
    · next l b items _ => exact .inr ⟨l, b, items, _, rfl, rfl, hedit.subperm items⟩
    · exact .inl rfl
  · exact .inl rfl

/-- Replacing the parts of a sequence by its rearranged items gives the sequence of these items. -/
theorem setChildren_arranged {l : Label} {b : Bracket} {items : List (Form Label)}
    (hedit : Arrangement edit) (h : t.Holds parent (.seq l b items))
    (hnodup : (Form.seq l b items).ids.Nodup) :
    ∃ t', t.setChildren l.id (t.arranged edit (t.children l.id)) = .ok t' ∧
      t'.Holds parent (.seq l b (edit items)) ∧
      SameOutside (Form.seq l b items).ids t t' := by
  obtain ⟨t', hset, hheld, hsame⟩ :=
    holds_setChildren h hnodup (hedit.subperm items).subset
  have hchildren : t.children l.id = items.map Form.id := h.children
  rw [hchildren, arranged_of_holds hedit h.items]
  refine ⟨t', hset, hheld, hsame.mono fun i hi => ?_⟩
  obtain rfl := List.mem_singleton.mp hi
  exact (Form.seq l b items).id_mem_ids

theorem edits_tighten : EditsAs tighten tightened := by
  intro t parent f h hnodup _
  cases f with
  | seq l b items =>
    unfold tighten
    rw [Form.id_seq, h.closesTight, tightened]
    split
    · exact setChildren_arranged Transform.arrangement_dropTrailingBreaks h hnodup
    · exact ⟨t, rfl, h, .refl _ t⟩
  | atom l x => exact ⟨t, by rw [tighten, Tree.closesTight, h.shape]; rfl, h, .refl _ t⟩
  | prefixed l s body => exact ⟨t, by rw [tighten, Tree.closesTight, h.shape]; rfl, h, .refl _ t⟩

theorem edits_thin : EditsAs thin thinned := by
  intro t parent f h hnodup _
  unfold thin
  split
  · next hmany =>
    cases f with
    | seq l b items => exact setChildren_arranged Transform.arrangement_collapse h hnodup
    | _ =>
      rw [h.children] at hmany
      simp [Form.parts, Form.shape, Shape.parts] at hmany
  · next hfew =>
    refine ⟨t, rfl, ?_, .refl _ t⟩
    cases f with
    | seq l b items =>
      rw [h.children, List.length_map] at hfew
      have hsame : Transform.collapse items = items :=
        Transform.collapse_of_length_le (Nat.le_of_not_lt hfew)
      rw [thinned, hsame]
      exact h
    | _ => exact h

theorem edits_raise (hedit : Arrangement edit) (name : String) :
    EditsAs (raise name edit) (Transform.editCallOf name edit) := by
  intro t parent f h hnodup _
  unfold raise Transform.editCallOf
  rw [h.isCallOf]
  by_cases hcall : f.isCallOf name = true
  · rw [if_pos hcall]
    cases f with
    | seq l b items =>
      by_cases hsame : t.arranged edit (t.children l.id) = t.children l.id
      · refine ⟨t, by simp [hsame], ?_, .refl _ t⟩
        have hids : (edit items).map Form.id = items.map Form.id := by
          have hchildren : t.children l.id = items.map Form.id := h.children
          rw [← arranged_of_holds hedit h.items, ← hchildren]
          exact hsame
        have hnode : (Form.seq l b (edit items)).node parent
            = (Form.seq l b items).node parent := by
          simp [Form.node, Form.shape, Shape.map, Form.note, hids]
        exact holds_iff.mpr ⟨hnode ▸ h.node, fun g hg => h.part ((hedit.subperm items).subset hg)⟩
      · obtain ⟨t', hset, hheld, houtside⟩ := setChildren_arranged hedit h hnodup
        exact ⟨t', by simp [hcall, hsame, hset], hheld, houtside⟩
    | _ => simp [Form.isCallOf, Form.call?, Form.shape, Shape.list?] at hcall
  · rw [if_neg hcall]
    exact ⟨t, by simp [hcall], h, .refl _ t⟩

/-! ## 5. The transforms -/

/-- Pulling up every closing delimiter below a form pulls up its own on the way. -/
theorem pullUp_eq_mapParts (f : Form Label) :
    Transform.pullUp f = (tightened f).mapParts Transform.pullUp := by
  cases f with
  | seq l b items =>
    have hhead : ∀ g : Form Label, (Transform.pullUp g).shape.head = g.shape.head := by
      intro g
      cases g <;> rfl
    simp only [Transform.pullUp, Transform.pullUpAll_eq_map, tightened, Form.mapParts]
    split
    · rw [Transform.arrangement_dropTrailingBreaks.natural _ hhead]
    · rfl
  | _ => rfl

/-- Leaving few blank lines everywhere below a form does so among its own items on the way. -/
theorem squeeze_eq_mapParts (f : Form Label) :
    Transform.squeeze f = (thinned f).mapParts Transform.squeeze := by
  cases f with
  | seq l b items =>
    have hhead : ∀ g : Form Label, (Transform.squeeze g).shape.head = g.shape.head := by
      intro g
      cases g <;> rfl
    simp only [Transform.squeeze, Transform.squeezeAll_eq_map, thinned, Form.mapParts]
    rw [Transform.arrangement_collapse.natural _ hhead]
  | _ => rfl

theorem prunes_applyTo (x : Transform) : Prunes fun f => Transform.applyTo f x := by
  cases x with
  | trailing => exact prunes_tightened.mapParts pullUp_eq_mapParts
  | defnArglist => exact prunes_editCallOf Transform.arrangement_raiseArglist "defn"
  | defmethodDispatch => exact prunes_editCallOf Transform.arrangement_raiseDispatch "defmethod"
  | blankLines => exact prunes_thinned.mapParts squeeze_eq_mapParts

/-- Each transform does to a tree what it does to a form. -/
theorem edits_applyTo (x : Transform) :
    EditsAs (fun t root => applyTo root t x) fun f => Transform.applyTo f x := by
  cases x with
  | trailing =>
    intro t parent f h hnodup hsize
    exact editBelow_edits edits_tighten prunes_tightened pullUp_eq_mapParts hsize h hnodup hsize
  | defnArglist => exact edits_raise Transform.arrangement_raiseArglist "defn"
  | defmethodDispatch => exact edits_raise Transform.arrangement_raiseDispatch "defmethod"
  | blankLines =>
    intro t parent f h hnodup hsize
    exact editBelow_edits edits_thin prunes_thinned squeeze_eq_mapParts hsize h hnodup hsize

theorem prunes_foldl (xs : List Transform) : Prunes fun f => xs.foldl Transform.applyTo f := by
  induction xs with
  | nil => exact ⟨fun _ => rfl, fun _ => .refl _⟩
  | cons x xs ih =>
    refine ⟨fun f => (ih.id _).trans ((prunes_applyTo x).id f), fun f => ?_⟩
    exact (ih.ids _).trans ((prunes_applyTo x).ids f)

/-- So do several of them, one after another. -/
theorem edits_foldl (xs : List Transform) :
    EditsAs (fun t root => xs.foldlM (applyTo root) t) fun f => xs.foldl Transform.applyTo f := by
  induction xs with
  | nil => exact fun t parent f h _ _ => ⟨t, rfl, h, .refl _ t⟩
  | cons x xs ih =>
    intro t parent f h hnodup hsize
    have hids := (prunes_applyTo x).ids f
    have hid : (Transform.applyTo f x).id = f.id := (prunes_applyTo x).id f
    obtain ⟨t₁, hfirst, hheld, hsame⟩ := edits_applyTo x h hnodup hsize
    have hfits : (Transform.applyTo f x).ids.length ≤ t₁.size :=
      hsame.size ▸ Nat.le_trans hids.length_le hsize
    obtain ⟨t', hlater, hheld', hsame'⟩ := ih hheld (nodup_of_subperm hids hnodup) hfits
    dsimp only at hlater
    refine ⟨t', ?_, hheld', hsame.trans (hsame'.mono hids.subset)⟩
    rw [hid] at hlater
    have hcons : (x :: xs).foldlM (applyTo f.id) t = xs.foldlM (applyTo f.id) t₁ :=
      foldlM_cons_ok xs hfirst
    exact hcons.trans hlater

/-! ## 6. The whole tree -/

/-- Some of the roots can be made the only ones. -/
theorem represents_setRoots {fs' : List (Form Label)} (h : t.Represents fs)
    (hsub : List.Subperm fs' fs) :
    (t.setRoots (fs'.map Form.id)).Represents fs' := by
  have hids := subperm_flatMap hsub
  refine ⟨rfl, fun f hf => ?_, nodup_of_subperm hids h.nodup,
    Nat.le_trans hids.length_le h.length_le⟩
  -- Roots have no parents, so nothing changes.
  refine (h.holds f (hsub.subset hf)).congr fun i _ => ?_
  rw [setRoots, getElem?_setParents]
  split
  · next hmem =>
    obtain ⟨g, hg, rfl⟩ := List.mem_map.mp hmem
    rw [(h.holds g (hsub.subset hg)).node]
    rfl
  · rfl

/-- Rearranging a tree is never refused, and the tree then represents the rearranged forms. -/
theorem represents_rearrange (h : t.Represents fs) (enabled : List Transform) :
    ∃ t', t.rearrange enabled = .ok t' ∧ t'.Represents (Transform.applyAll enabled fs) := by
  let xs := Transform.all.filter enabled.contains
  have hprunes := prunes_foldl xs
  let edit : Tree → NodeId → Except EditError Tree := fun t root => xs.foldlM (applyTo root) t
  have hedit : ∀ f ∈ fs, ∀ t₁ : Tree, t₁.size = t.size → t₁.Holds none f →
      ∃ t', edit t₁ f.id = .ok t' ∧ t'.Holds none (xs.foldl Transform.applyTo f) ∧
        SameOutside f.ids t₁ t' :=
    fun f hf t₁ hsize hheld =>
      edits_foldl xs hheld (nodup_of_mem_parts hf h.nodup) (hsize ▸ h.length_ids_le hf)
  obtain ⟨edited, hedited, hholds, hsame⟩ :=
    foldlM_edits hedit hprunes h.nodup rfl h.holds
  have hids := subperm_flatMap_map fun f (_ : f ∈ fs) => hprunes.ids f
  have hrepresents : edited.Represents (fs.map fun f => xs.foldl Transform.applyTo f) := by
    refine ⟨?_, List.forall_mem_map.mpr hholds, nodup_of_subperm hids h.nodup, ?_⟩
    · rw [hsame.roots, h.roots, List.map_map]
      exact List.map_congr_left fun f _ => (hprunes.id f).symm
    · exact hsame.size ▸ Nat.le_trans hids.length_le h.length_le
  have hfold : t.roots.foldlM (fun t root => xs.foldlM (applyTo root) t) t = .ok edited :=
    h.roots ▸ hedited
  unfold rearrange Transform.applyAll
  rw [hfold]
  by_cases hblank : enabled.contains .blankLines = true
  · simp only [hblank, if_true]
    refine ⟨_, rfl, ?_⟩
    rw [hrepresents.roots, arranged_of_holds Transform.arrangement_collapse hrepresents.holds]
    exact represents_setRoots hrepresents (Transform.arrangement_collapse.subperm _)
  · simp only [hblank]
    exact ⟨edited, rfl, hrepresents⟩

end Tree

end CljFormat
