/-
CljFormat.Proofs.Layout.Receivers — which items of a threading form are threaded into.

A threading form passes its value to some of its items by their places, and what has a place is all
code. Metadata has one too, although it belongs to the item behind it. So in front of an item it
moves that item and all later ones one place on (`threading_insert`).

Where every item behind the first receives the value this matters only to the one that the value was
taken from: in `(-> ^m (f) (g))` the form `(f)` counts as a receiver. In a form of pairs, tests and
steps change sides: in `(cond-> x ^m (test) (step))` it is `(test)` that receives the value.

What is threaded into is noted at the forms themselves (`threading`), so that two sources can be
compared place by place.
-/
import CljFormat.Proofs.Layout.Inside
import CljFormat.Proofs.Layout.Threading

namespace CljFormat

namespace Form

variable {α β : Type}

/-! ## 1. Other annotations -/

mutual

/-- A form with other annotations. -/
def annotate (a : α → β) : Form α → Form β
  | .atom note x => .atom (a note) x
  | .prefixed note s body => .prefixed (a note) s (annotate a body)
  | .seq note b items => .seq (a note) b (annotateAll a items)

/-- Neighbouring forms with other annotations. -/
def annotateAll (a : α → β) : List (Form α) → List (Form β)
  | [] => []
  | f :: rest => annotate a f :: annotateAll a rest

end

@[simp] theorem annotateAll_eq_map (a : α → β) (fs : List (Form α)) :
    annotateAll a fs = fs.map (annotate a) := by
  induction fs with
  | nil => rfl
  | cons f rest ih => simp [annotateAll, ih]

@[simp] theorem annotate_atom (a : α → β) (note : α) (x : Atom) :
    annotate a (.atom note x) = .atom (a note) x := rfl

@[simp] theorem annotate_prefixed (a : α → β) (note : α) (s : Sigil) (body : Form α) :
    annotate a (.prefixed note s body) = .prefixed (a note) s (annotate a body) := rfl

@[simp] theorem annotate_seq (a : α → β) (note : α) (b : Bracket) (items : List (Form α)) :
    annotate a (.seq note b items) = .seq (a note) b (items.map (annotate a)) := by
  simp [annotate]

@[simp] theorem note_annotate (a : α → β) (f : Form α) : (f.annotate a).note = a f.note := by
  cases f <;> rfl

@[simp] theorem bare_annotate (a : α → β) (f : Form α) : (f.annotate a).bare = f.bare := by
  induction f using Form.induct with
  | atom note x => rfl
  | prefixed note s body ih => simp [ih]
  | seq note b items ih => simpa using ih

@[simp] theorem isSemantic_annotate (a : α → β) (f : Form α) :
    (f.annotate a).isSemantic = f.isSemantic := by
  rw [← isSemantic_bare, bare_annotate, isSemantic_bare]

theorem nodes_annotate (a : α → β) (f : Form α) :
    (f.annotate a).nodes = f.nodes.map (annotate a) := by
  induction f using Form.induct with
  | atom note x => rfl
  | prefixed note s body ih => simp [ih]
  | seq note b items ih =>
    rw [annotate_seq, nodes_seq, nodes_seq, List.map_cons, annotate_seq, List.flatMap_map,
      List.map_flatMap]
    exact congrArg _ (List.flatMap_congr ih)

variable {a a' : Nat → β}

mutual

/-- The same form is annotated the same if the annotations by its identities are, in order. -/
theorem annotate_eq {f g : Form Label} (hbare : f.bare = g.bare)
    (hids : f.ids.map a = g.ids.map a') :
    f.annotate (fun l => a l.id) = g.annotate (fun l => a' l.id) :=
  match f with
  | .atom l x => by
    cases g with
    | atom l' y =>
      obtain rfl : x = y := by simpa using hbare
      have hid : a l.id = a' l'.id := by simpa using hids
      rw [annotate_atom, annotate_atom, hid]
    | _ => simp at hbare
  | .prefixed l s body => by
    cases g with
    | prefixed l' s' body' =>
      obtain ⟨rfl, hbody⟩ : s = s' ∧ body.bare = body'.bare := by simpa using hbare
      obtain ⟨hid, hids⟩ := List.cons.inj hids
      have hself : a l.id = a' l'.id := hid
      rw [annotate_prefixed, annotate_prefixed, annotate_eq hbody hids, hself]
    | _ => simp at hbare
  | .seq l b items => by
    cases g with
    | seq l' b' items' =>
      obtain ⟨rfl, hitems⟩ : b = b' ∧ items.map bare = items'.map bare := by simpa using hbare
      rw [ids_seq, ids_seq, List.map_cons, List.map_cons] at hids
      obtain ⟨hid, hids⟩ := List.cons.inj hids
      rw [annotate_seq, annotate_seq, map_annotate_eq hitems hids, hid]
    | _ => simp at hbare

theorem map_annotate_eq {fs gs : List (Form Label)} (hbare : fs.map bare = gs.map bare)
    (hids : (fs.flatMap ids).map a = (gs.flatMap ids).map a') :
    fs.map (annotate fun l => a l.id) = gs.map (annotate fun l => a' l.id) :=
  match fs with
  | [] => by
    obtain rfl := List.map_eq_nil_iff.mp hbare.symm
    rfl
  | f :: fs => by
    obtain ⟨g, gs, rfl, hg, hgs⟩ := List.map_eq_cons_iff.mp hbare.symm
    have hlength : (f.ids.map a).length = (g.ids.map a').length := by
      rw [List.length_map, List.length_map, length_ids, length_ids, hg]
    rw [List.flatMap_cons, List.flatMap_cons, List.map_append, List.map_append] at hids
    obtain ⟨hf, hfs⟩ := List.append_inj hids hlength
    rw [List.map_cons, List.map_cons, annotate_eq hg.symm hf, map_annotate_eq hgs.symm hfs]

end

end Form

namespace Layout

open Form (Replaces ReplacesAmong)

variable {table : IndentTable} {roots roots' : List (Form Label)} {f g s s' : Form Label}

/-! ## 2. What is threaded into, noted at the forms -/

/-- The forms of a source, each with whether it is threaded into. -/
def threading (table : IndentTable) (roots : List (Form Label)) : List (Form Bool) :=
  roots.map (Form.annotate fun l => (Context.ofRoots table roots).marks.threaded.contains l.id)

/-- The same forms with other labels are threaded into the same. -/
theorem threading_congr (hnodup : (roots.flatMap Form.ids).Nodup)
    (hnodup' : (roots'.flatMap Form.ids).Nodup) (h : roots.map Form.bare = roots'.map Form.bare) :
    threading table roots = threading table roots' := by
  obtain ⟨-, htwins, hmarks⟩ := marks_paired hnodup hnodup' h table
  refine Form.map_annotate_eq h ?_
  rw [← List.forall₂_eq_eq_eq, List.forall₂_map_left_iff, List.forall₂_map_right_iff]
  exact htwins.ids.imp fun {i j} hij => hmarks.threaded i j hij

theorem map_annotate_off {a a' : Nat → Bool} {is : List Nat} {fs : List (Form Label)}
    (hsame : ∀ i ∉ is, a' i = a i) (hfs : ∀ i ∈ fs.flatMap Form.ids, i ∉ is) :
    fs.map (Form.annotate fun l => a' l.id) = fs.map (Form.annotate fun l => a l.id) := by
  refine Form.map_annotate_eq rfl (List.map_congr_left fun i hi => hsame i (hfs i hi))

/-- Annotations that are the same but below a replaced form differ only where it stands. -/
theorem replaces_annotate {a a' : Nat → Bool} (h : Replaces s s' f g) (hnodup : g.ids.Nodup)
    (hsame : ∀ i ∉ below s', a' i = a i) :
    Replaces (s.annotate fun l => a l.id) (s'.annotate fun l => a' l.id)
      (f.annotate fun l => a l.id) (g.annotate fun l => a' l.id) := by
  induction h with
  | here => exact .here
  | prefixed l p hfg ih =>
    have hself : l.id ∉ below s' := id_notMem_below (Replaces.prefixed l p hfg).mem_nodes hnodup
    rw [Form.annotate_prefixed, Form.annotate_prefixed, hsame _ hself]
    exact .prefixed _ p (ih (List.nodup_cons.mp hnodup).2)
  | seq l b before after hfg ih =>
    have hself : l.id ∉ below s' :=
      id_notMem_below (Replaces.seq l b before after hfg).mem_nodes hnodup
    rw [Form.ids_seq, List.nodup_cons] at hnodup
    obtain ⟨hbefore, hafter, hg⟩ := disjoint_below hfg.mem_nodes hnodup.2
    rw [Form.annotate_seq, Form.annotate_seq, hsame _ hself, List.map_append, List.map_append,
      List.map_cons, List.map_cons, map_annotate_off hsame hbefore, map_annotate_off hsame hafter]
    exact .seq _ b _ _ (ih hg)

/-! ## 3. The items of one form -/

/-- The first place that a threading form passes its value to. One that is threaded into itself has
lost its first argument. -/
def firstPlace (nested : Bool) : Nat := if nested then 1 else 2

/-- The code in a list has different identities. -/
theorem nodup_id_code {l : Label} {b : Bracket} {items : List (Form Label)}
    (h : (roots.flatMap Form.ids).Nodup) (hf : .seq l b items ∈ Form.nodesAll roots) :
    ((items.filter Form.isSemantic).map Form.id).Nodup := by
  rw [Form.nodesAll_eq_flatMap] at hf
  obtain ⟨root, hroot, hf⟩ := List.mem_flatMap.mp hf
  have hids := Tree.nodup_of_mem_nodes hf (Tree.nodup_of_mem_parts hroot h)
  exact (Tree.nodup_id_parts hids).sublist (List.filter_sublist.map Form.id)

/-- Of the lists among the items of a threading form those are threaded into that stand in a place
that the form passes its value to. -/
theorem contains_item {t : Tree} {l m : Label} {name : String} {style : ThreadFirst}
    {items inner : List (Form Label)} {j : Nat} (h : t.Represents roots)
    (hf : .seq l .list items ∈ Form.nodesAll roots)
    (hcall : (Form.seq l .list items).call? = some (name, items))
    (hstyle : table.threadFirst? name = some style)
    (hitem : (items.filter Form.isSemantic)[j]? = some (.seq m .list inner)) :
    let marked := (Context.ofRoots table roots).marks.threaded
    marked.contains m.id = threadsInto style (firstPlace (marked.contains l.id)) j := by
  intro marked
  have hmarked : marked.contains m.id = true ↔
      ∃ g ∈ Form.nodesAll roots, PassesTo table (marked.contains g.id) g m.id := by
    rw [Form.nodesAll_eq_flatMap]
    exact (threaded_addAll_iff {} roots h.nodup).trans (or_iff_right (by simp))
  rw [Bool.eq_iff_iff, hmarked, threadsInto_iff]
  constructor
  · rintro ⟨g, hg, name', items', style', hcall', hstyle', hreceives⟩
    obtain ⟨j', m', inner', hitem', hid, hplace⟩ := mem_receivers_iff.mp hreceives
    have hpart : Form.seq m .list inner ∈ items :=
      List.mem_of_mem_filter (List.mem_of_getElem? hitem)
    have hpart' : Form.seq m' .list inner' ∈ g.parts :=
      parts_of_call hcall' ▸ List.mem_of_mem_filter (List.mem_of_getElem? hitem')
    -- Only one form has the item, and that in one place.
    obtain rfl := h.eq_of_part hf hg hpart hpart' hid.symm
    obtain ⟨rfl, rfl⟩ : name = name' ∧ items = items' := by simpa [hcall] using hcall'
    obtain rfl : style = style' := Option.some.inj (hstyle.symm.trans hstyle')
    obtain ⟨hj, -⟩ := List.getElem?_eq_some_iff.mp hitem
    obtain rfl : j = j' := by
      refine (List.getElem?_inj (by simpa using hj) (nodup_id_code h.nodup hf)).mp ?_
      rw [List.getElem?_map, List.getElem?_map, hitem, hitem']
      exact congrArg some hid.symm
    exact hplace
  · intro hplace
    exact ⟨_, hf, name, items, style, hcall, hstyle,
      mem_receivers_iff.mpr ⟨j, m, inner, hitem, rfl, hplace⟩⟩

theorem nodesAll_threading :
    Form.nodesAll (threading table roots) = (Form.nodesAll roots).map
      (Form.annotate fun l => (Context.ofRoots table roots).marks.threaded.contains l.id) := by
  rw [threading, Form.nodesAll_eq_flatMap, Form.nodesAll_eq_flatMap, List.flatMap_map,
    List.map_flatMap]
  exact List.flatMap_congr fun f _ => Form.nodes_annotate _ f

/-- An item that is code has its place behind the code before it. -/
theorem getElem?_code {α : Type} {fs : List (Form α)} {i : Nat} {f : Form α} (h : fs[i]? = some f)
    (hf : f.isSemantic = true) :
    (fs.filter Form.isSemantic)[(fs.take i).countP Form.isSemantic]? = some f := by
  induction fs generalizing i with
  | nil => simp at h
  | cons g fs ih =>
    cases i with
    | zero =>
      obtain rfl : g = f := by simpa using h
      simp [hf]
    | succ i =>
      have hlater := ih (by simpa using h)
      by_cases hg : g.isSemantic = true <;> simp [hg, hlater]

/-- A list among the items of a threading form is noted to be threaded into if the form passes its
value to the place of the list. -/
theorem note_item {t : Tree} {name : String} {style : ThreadFirst} {nested : Bool}
    {items : List (Form Bool)} {f : Form Bool} {rest : List (Form Unit)} {i : Nat}
    (h : t.Represents roots)
    (hseq : .seq nested .list items ∈ Form.nodesAll (threading table roots))
    (hhead : items.map Form.bare = .atom () (.symbol name) :: rest)
    (hstyle : table.threadFirst? name = some style) (hitem : items[i]? = some f)
    (hf : f.shape.list?.isSome = true) :
    f.note = threadsInto style (firstPlace nested) ((items.take i).countP Form.isSemantic) := by
  rw [nodesAll_threading] at hseq
  obtain ⟨g, hg, hannotated⟩ := List.mem_map.mp hseq
  cases g with
  | seq l b labelled =>
    rw [Form.annotate_seq] at hannotated
    obtain ⟨rfl, rfl, rfl⟩ := Form.seq.inj hannotated
    have hcall : (Form.seq l .list labelled).call? = some (name, labelled) := by
      simp only [List.map_map, Function.comp_def, Form.bare_annotate] at hhead
      obtain ⟨head, later, rfl, hhead, -⟩ := List.map_eq_cons_iff.mp hhead
      obtain ⟨k, rfl⟩ := Form.eq_symbol (f := head) (by rw [← Form.symbol_bare, hhead]; rfl)
      exact Form.call?_eq_some_iff.mpr ⟨l, k, later, rfl, rfl⟩
    rw [List.getElem?_map] at hitem
    obtain ⟨k, hk, rfl⟩ := Option.map_eq_some_iff.mp hitem
    rw [← Form.list_bare, Form.bare_annotate, Form.list_bare] at hf
    obtain ⟨inner, hinner⟩ := Option.isSome_iff_exists.mp hf
    obtain ⟨m, rfl⟩ := Form.list?_eq_some_iff.mp hinner
    have hplace : ((labelled.map (Form.annotate fun l =>
        (Context.ofRoots table roots).marks.threaded.contains l.id)).take i).countP Form.isSemantic
        = (labelled.take i).countP Form.isSemantic := by
      simp [← List.map_take, List.countP_map, Function.comp_def]
    rw [Form.note_annotate, hplace]
    exact contains_item h hg hcall hstyle (getElem?_code hk rfl)
  | _ => simp at hannotated

section

variable {t : Tree} {name : String} {style : ThreadFirst} {nested : Bool}
  {front back : List (Form Bool)} {f : Form Bool} {rest : List (Form Unit)} {i : Nat}

theorem note_front (h : t.Represents roots)
    (hseq : .seq nested .list (front ++ back) ∈ Form.nodesAll (threading table roots))
    (hhead : (front ++ back).map Form.bare = .atom () (.symbol name) :: rest)
    (hstyle : table.threadFirst? name = some style) (hitem : front[i]? = some f)
    (hf : f.shape.list?.isSome = true) :
    f.note = threadsInto style (firstPlace nested) ((front.take i).countP Form.isSemantic) := by
  obtain ⟨hi, -⟩ := List.getElem?_eq_some_iff.mp hitem
  have hitem' : (front ++ back)[i]? = some f := by rw [List.getElem?_append_left hi, hitem]
  rw [note_item h hseq hhead hstyle hitem' hf, List.take_append_of_le_length (Nat.le_of_lt hi)]

theorem note_back (h : t.Represents roots)
    (hseq : .seq nested .list (front ++ back) ∈ Form.nodesAll (threading table roots))
    (hhead : (front ++ back).map Form.bare = .atom () (.symbol name) :: rest)
    (hstyle : table.threadFirst? name = some style) (hitem : back[i]? = some f)
    (hf : f.shape.list?.isSome = true) :
    f.note = threadsInto style (firstPlace nested)
      ((front ++ back.take i).countP Form.isSemantic) := by
  have hitem' : (front ++ back)[front.length + i]? = some f := by
    rw [List.getElem?_append_right (Nat.le_add_right _ _), Nat.add_sub_cancel_left, hitem]
  rw [note_item h hseq hhead hstyle hitem' hf, List.take_length_add_append]

end

/-! ## 4. One more item -/

/-- A list that moves from the place `index` to the next one comes to be passed the value, or ceases
to be. -/
def crosses (style : ThreadFirst) (start index : Nat) : Bool :=
  match style with
  | .normal => index + 1 == start
  | .condArrow => start ≤ index

theorem threadsInto_succ (style : ThreadFirst) (start index : Nat) :
    threadsInto style start (index + 1)
      = (threadsInto style start index ^^ crosses style start index) := by
  cases style <;> grind [threadsInto, crosses]

/-- Two sources that differ in the items of one list are threaded into alike around them. -/
theorem threading_replaced {b : Bracket} {xs ys : List (Form Unit)}
    (hnodup : (roots.flatMap Form.ids).Nodup) (hnodup' : (roots'.flatMap Form.ids).Nodup)
    (h : ReplacesAmong (.seq () b xs) (.seq () b ys) (roots.map Form.bare) (roots'.map Form.bare))
    (hsub : xs.Sublist ys) :
    ∃ nested items items', items.map Form.bare = xs ∧ items'.map Form.bare = ys ∧
      ReplacesAmong (.seq nested b items) (.seq nested b items') (threading table roots)
        (threading table roots') := by
  obtain ⟨l, items, items', before, after, f, g, rfl, rfl, -, rfl, hroots₀, hnodup₀, hfg, hm⟩ :=
    relabel hnodup' h hsub table
  obtain ⟨hbefore, hafter, hg⟩ := disjoint_below hfg.mem_nodes hnodup'
  let a : Nat → Bool := (Context.ofRoots table (before ++ f :: after)).marks.threaded.contains
  let a' : Nat → Bool := (Context.ofRoots table (before ++ g :: after)).marks.threaded.contains
  have hsame : ∀ i ∉ below (.seq l b items'), a' i = a i := fun i hi => (hm i hi).threaded
  have hself : l.id ∉ below (.seq l b items') :=
    id_notMem_below (Form.self_mem_nodes _) (Tree.nodup_of_mem_nodes hfg.mem_nodes hg)
  have hreplaces := replaces_annotate hfg hg hsame
  rw [Form.annotate_seq, Form.annotate_seq, hsame _ hself] at hreplaces
  refine ⟨a l.id, items.map (Form.annotate fun l => a l.id),
    items'.map (Form.annotate fun l => a' l.id), by simp [Function.comp_def],
    by simp [Function.comp_def], before.map (Form.annotate fun l => a l.id), _, _,
    after.map (Form.annotate fun l => a l.id), ?_, ?_, hreplaces⟩
  · rw [← threading_congr hnodup₀ hnodup hroots₀]
    simp [threading, a]
  · rw [← map_annotate_off hsame hbefore, ← map_annotate_off hsame hafter]
    simp [threading, a']

section

variable {α β : Type} {fs : List (Form α)} {gs : List (Form β)} {i : Nat}

/-- As many of the same forms are code, however they are noted. -/
theorem countP_code (h : fs.map Form.bare = gs.map Form.bare) :
    fs.countP Form.isSemantic = gs.countP Form.isSemantic := by
  have hcount := congrArg (List.countP Form.isSemantic) h
  simpa [List.countP_map, Function.comp_def] using hcount

theorem countP_code_take (h : fs.map Form.bare = gs.map Form.bare) (i : Nat) :
    (fs.take i).countP Form.isSemantic = (gs.take i).countP Form.isSemantic :=
  countP_code (by rw [List.map_take, List.map_take, h])

theorem list_of_getElem? {f : Form α} {g : Form β} (h : fs.map Form.bare = gs.map Form.bare)
    (hf : fs[i]? = some f) (hg : gs[i]? = some g) (hlist : f.shape.list?.isSome = true) :
    g.shape.list?.isSome = true := by
  have hbare := congrArg (fun hs => hs[i]?) h
  simp only [List.getElem?_map, hf, hg, Option.map_some, Option.some.injEq] at hbare
  rwa [← Form.list_bare, ← hbare, Form.list_bare]

end

end Layout

open Layout (threading firstPlace crosses)
open Form (ReplacesAmong)

/-- With one more form behind the head of a threading form, that form itself and all around it is
threaded into as before. So are the items before the new one. A list behind it has a place one
further on if the new form is code, be it metadata: then it is threaded into where it was not, or
the other way round, exactly if the form passes its value to one of the two places only. -/
theorem threading_insert {options : Reader.Options} {source source' name : String}
    {d d' : Reader.Document} {enabled : List Transform} {table : IndentTable} {style : ThreadFirst}
    {xs ys : List (Form Unit)} {x : Form Unit}
    (hread : Reader.read options source = .ok d) (hread' : Reader.read options source' = .ok d')
    (hstyle : table.threadFirst? name = some style)
    (h : ReplacesAmong (.seq () .list (.atom () (.symbol name) :: (xs ++ ys)))
      (.seq () .list (.atom () (.symbol name) :: (xs ++ x :: ys)))
      ((Transform.applyAll enabled d.roots).map Form.bare)
      ((Transform.applyAll enabled d'.roots).map Form.bare)) :
    ∃ (nested : Bool) (before after before' : List (Form Bool)) (x' : Form Bool)
      (after' : List (Form Bool)),
      before.map Form.bare = .atom () (.symbol name) :: xs ∧ after.map Form.bare = ys ∧
      before'.map Form.bare = .atom () (.symbol name) :: xs ∧ x'.bare = x ∧
      after'.map Form.bare = ys ∧
      ReplacesAmong (.seq nested .list (before ++ after))
        (.seq nested .list (before' ++ x' :: after'))
        (threading table (Transform.applyAll enabled d.roots))
        (threading table (Transform.applyAll enabled d'.roots)) ∧
      (∀ (i : Nat) (f f' : Form Bool), before[i]? = some f → before'[i]? = some f' →
        f.shape.list?.isSome = true → f'.note = f.note) ∧
      ∀ (i : Nat) (f f' : Form Bool), after[i]? = some f → after'[i]? = some f' →
        f.shape.list?.isSome = true → f'.note = (f.note ^^ (x.isSemantic &&
          crosses style (firstPlace nested) ((before ++ after.take i).countP Form.isSemantic))) := by
  obtain ⟨t, -, ht⟩ := Tree.represents_rearrange (Tree.represents_ofDocument hread) enabled
  obtain ⟨t', -, ht'⟩ := Tree.represents_rearrange (Tree.represents_ofDocument hread') enabled
  have hsub : (Form.atom () (.symbol name) :: (xs ++ ys)).Sublist
      (.atom () (.symbol name) :: (xs ++ x :: ys)) :=
    ((List.sublist_cons_self x ys).append_left xs).cons_cons _
  obtain ⟨nested, items, items', hitems, hitems', hreplaces⟩ :=
    @Layout.threading_replaced table _ _ .list _ _ ht.nodup ht'.nodup h hsub
  have hseq := hreplaces.symm.mem_nodesAll
  have hseq' := hreplaces.mem_nodesAll
  obtain ⟨before, after, rfl, hbefore, hafter⟩ := List.map_eq_append_iff.mp
    (show items.map Form.bare = (.atom () (.symbol name) :: xs) ++ ys from hitems)
  obtain ⟨before', later, rfl, hbefore', hlater⟩ := List.map_eq_append_iff.mp
    (show items'.map Form.bare = (.atom () (.symbol name) :: xs) ++ x :: ys from hitems')
  obtain ⟨x', after', rfl, hx, hafter'⟩ := List.map_eq_cons_iff.mp hlater
  refine ⟨nested, before, after, before', x', after', hbefore, hafter, hbefore', hx, hafter',
    hreplaces, ?_, ?_⟩
  · intro i f f' hf hf' hlist
    have hsame := hbefore.trans hbefore'.symm
    have hlist' := Layout.list_of_getElem? hsame hf hf' hlist
    rw [Layout.note_front ht hseq hitems hstyle hf hlist,
      Layout.note_front ht' hseq' hitems' hstyle hf' hlist', Layout.countP_code_take hsame i]
  · intro i f f' hf hf' hlist
    have hsame := hafter.trans hafter'.symm
    have hlist' := Layout.list_of_getElem? hsame hf hf' hlist
    have hplace : (before' ++ [x'] ++ after'.take i).countP Form.isSemantic
        = (before ++ after.take i).countP Form.isSemantic + if x.isSemantic then 1 else 0 := by
      simp only [List.countP_append, List.countP_singleton, ← hx, Form.isSemantic_bare,
        Layout.countP_code_take hsame i, Layout.countP_code (hbefore.trans hbefore'.symm)]
      exact Nat.add_right_comm _ _ _
    rw [List.append_cons] at hseq' hitems'
    rw [Layout.note_back ht hseq hitems hstyle hf hlist,
      Layout.note_back ht' hseq' hitems' hstyle hf' hlist', hplace]
    cases x.isSemantic with
    | false => simp
    | true => exact Layout.threadsInto_succ style (firstPlace nested) _

/-- In front of the test of a `cond->`, metadata changes for the test and for the step whether they
are threaded into. -/
theorem threading_insert_cond :
    ∃ (d d' : Reader.Document) (nested : Bool) (before after before' : List (Form Bool))
      (x' : Form Bool) (after' : List (Form Bool)),
      Reader.read .everything "(cond-> m (even? n) (assoc :a 1))" = .ok d ∧
      Reader.read .everything "(cond-> m ^k (even? n) (assoc :a 1))" = .ok d' ∧
      ReplacesAmong (.seq nested .list (before ++ after))
        (.seq nested .list (before' ++ x' :: after'))
        (threading {} d.roots) (threading {} d'.roots) ∧
      after.length = 2 ∧
      ∀ (i : Nat) (f f' : Form Bool), after[i]? = some f → after'[i]? = some f' →
        f.shape.list?.isSome = true → f'.note = !f.note := by
  let symbol (name : String) : Form Unit := .atom () (.symbol name)
  let test : Form Unit := .seq () .list [symbol "even?", symbol "n"]
  let step : Form Unit :=
    .seq () .list [symbol "assoc", .atom () (.keyword ":a"), .atom () (.number "1")]
  let x : Form Unit := .prefixed () .metadata (symbol "k")
  have hread : ∃ d d', Reader.read .everything "(cond-> m (even? n) (assoc :a 1))" = .ok d ∧
      Reader.read .everything "(cond-> m ^k (even? n) (assoc :a 1))" = .ok d' ∧
      ReplacesAmong (.seq () .list (symbol "cond->" :: ([symbol "m"] ++ [test, step])))
        (.seq () .list (symbol "cond->" :: ([symbol "m"] ++ x :: [test, step])))
        (d.roots.map Form.bare) (d'.roots.map Form.bare) :=
    ⟨_, _, rfl, rfl, [], _, _, [], rfl, rfl, .here⟩
  obtain ⟨d, d', hread, hread', hreplaces⟩ := hread
  have hstyle : ({} : IndentTable).threadFirst? "cond->" = some .condArrow := rfl
  have hinsert := @threading_insert .everything _ _ "cond->" d d' [] {} .condArrow [symbol "m"]
    [test, step] x hread hread' hstyle
  rw [Transform.applyAll_nil, Transform.applyAll_nil] at hinsert
  obtain ⟨nested, before, after, before', x', after', hbefore, hafter, -, -, -, hplace, -, hlater⟩
    := hinsert hreplaces
  refine ⟨d, d', nested, before, after, before', x', after', hread, hread', hplace, ?_, ?_⟩
  · simpa using congrArg List.length hafter
  · intro i f f' hf hf' hlist
    have hcount : before.countP Form.isSemantic
        = [symbol "cond->", symbol "m"].countP Form.isSemantic :=
      Layout.countP_code (by rw [hbefore]; rfl)
    have hplace : firstPlace nested ≤ (before ++ after.take i).countP Form.isSemantic := by
      have hstart : firstPlace nested ≤ 2 := by cases nested <;> decide
      rw [List.countP_append, hcount]
      exact Nat.le_add_right_of_le hstart
    have hcrosses : crosses .condArrow (firstPlace nested)
        ((before ++ after.take i).countP Form.isSemantic) = true := decide_eq_true hplace
    have hcode : x.isSemantic = true := rfl
    rw [hlater i f f' hf hf' hlist, hcrosses, hcode, Bool.and_self, Bool.xor_true]

/-- With metadata in front of the test of a `cond->`, the test is threaded into instead of the step.
The step is then laid out as if nothing were passed to it. -/
theorem metadata_threads :
    ∃ d d', Reader.read .everything "(cond-> m (even? n) (assoc :a\n1))" = .ok d ∧
      Reader.read .everything "(cond-> m ^k (even? n) (assoc :a\n1))" = .ok d' ∧
      threading {} d.roots = [.seq false .list [.atom false (.symbol "cond->"),
        .atom false (.symbol "m"),
        .seq false .list [.atom false (.symbol "even?"), .atom false (.symbol "n")],
        .seq true .list [.atom false (.symbol "assoc"), .atom false (.keyword ":a"),
          .atom false .newline, .atom false (.number "1")]]] ∧
      threading {} d'.roots = [.seq false .list [.atom false (.symbol "cond->"),
        .atom false (.symbol "m"), .prefixed false .metadata (.atom false (.symbol "k")),
        .seq true .list [.atom false (.symbol "even?"), .atom false (.symbol "n")],
        .seq false .list [.atom false (.symbol "assoc"), .atom false (.keyword ":a"),
          .atom false .newline, .atom false (.number "1")]]] ∧
      format {} "(cond-> m (even? n) (assoc :a\n1))"
        = .ok "(cond-> m (even? n) (assoc :a\n                        1))" ∧
      format {} "(cond-> m ^k (even? n) (assoc :a\n1))"
        = .ok "(cond-> m ^k (even? n) (assoc :a\n                         1))" :=
  ⟨_, _, rfl, rfl, rfl, rfl, rfl, rfl⟩

end CljFormat
