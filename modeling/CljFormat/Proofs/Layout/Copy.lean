/-
CljFormat.Proofs.Layout.Copy — what a source says about its layout, said again by a copy of it.

A copy of a form is the form under other identities, with other strings and with line breaks behind
its comments. The identities of a source are all different, and so are those of what it comes back
as, so identities correspond one to one (`OneToOne`). Whatever is read off a source before it is
laid out looks at code only, and at strings only to see that they are strings. So a copy gives the
same short names (`aliases_copy`), and marks the copies of the forms that the source marks
(`marks_copy`).
-/
import Mathlib.Data.List.Nodup
import CljFormat.Layout.Plan
import CljFormat.Proofs.Form.Echo
import CljFormat.Proofs.Lists

namespace CljFormat.Layout

open List (Forall₂)

variable {I : Nat → Nat → Prop} {closed : Bool} {f g : Form Label} {fs gs : List (Form Label)}

/-! ## 1. Identities that correspond -/

/-- No identity corresponds to two. -/
structure OneToOne (I : Nat → Nat → Prop) : Prop where
  left : ∀ {i i' j}, I i j → I i' j → i = i'
  right : ∀ {i j j'}, I i j → I i j' → j = j'

/-- Of two sets of identities, each holds the identities that correspond to those in the other. -/
def Agree (I : Nat → Nat → Prop) (p q : Nat → Bool) : Prop :=
  ∀ i j, I i j → p i = q j

/-- A list of identities and the list of those that correspond to them agree. -/
theorem OneToOne.agree (hI : OneToOne I) {is js : List Nat} (h : Forall₂ I is js) :
    Agree I is.contains js.contains := by
  intro i j hij
  rw [Bool.eq_iff_iff, List.contains_iff_mem, List.contains_iff_mem]
  induction h with
  | nil => simp
  | @cons i' j' is js hhead _ ih =>
    rw [List.mem_cons, List.mem_cons, ih]
    have hiff : i = i' ↔ j = j' := by
      constructor
      · rintro rfl
        exact hI.right hij hhead
      · rintro rfl
        exact hI.left hij hhead
    rw [hiff]

/-- `g` is a copy of `f`. -/
abbrev Copy (I : Nat → Nat → Prop) (f g : Form Label) : Prop :=
  Form.Echoes (fun l l' => I l.id l'.id) (fun _ => Atom.Alike) f g

/-- The forms `gs` are copies of the forms `fs`, with line breaks behind comments. -/
abbrev CopyAll (I : Nat → Nat → Prop) (closed : Bool) (fs gs : List (Form Label)) : Prop :=
  Form.EchoesAll (fun l l' => I l.id l'.id) (fun _ => Atom.Alike) closed fs gs

/-- Forms with different identities that come back as forms with different identities are copied. -/
theorem exists_copyAll {A : Label → Atom → Atom → Prop} (hA : ∀ l x y, A l x y → x.Alike y)
    (h : Form.EchoesAll (fun _ _ => True) A closed fs gs)
    (hfs : ((Form.nodesAll fs).map fun f => f.note.id).Nodup)
    (hgs : ((Form.nodesAll gs).map fun f => f.note.id).Nodup) :
    ∃ I, OneToOne I ∧ CopyAll I closed fs gs := by
  obtain ⟨ps, hecho, hfst, hsnd⟩ := h.pairs
  have hleft : (ps.map fun p => p.1.id).Nodup := by
    have hids : ps.map (fun p => p.1.id) = (ps.map Prod.fst).map Label.id := by simp
    rw [hids, hfst]
    simpa [Function.comp_def] using hfs
  have hright : (ps.map fun p => p.2.id).Nodup := by
    have hids : ps.map (fun p => p.2.id) = (ps.map Prod.snd).map Label.id := by simp
    rw [hids]
    refine (hsnd.map Label.id).nodup ?_
    simpa [Function.comp_def] using hgs
  refine ⟨fun i j => ∃ p ∈ ps, p.1.id = i ∧ p.2.id = j, ⟨?_, ?_⟩, ?_⟩
  · rintro i i' j ⟨p, hp, rfl, rfl⟩ ⟨q, hq, rfl, hj⟩
    rw [List.inj_on_of_nodup_map hright hq hp hj]
  · rintro i j j' ⟨p, hp, rfl, rfl⟩ ⟨q, hq, hi, rfl⟩
    rw [List.inj_on_of_nodup_map hleft hq hp hi]
  · exact hecho.mono (fun l l' h => ⟨(l, l'), h, rfl, rfl⟩) hA

/-! ## 2. One level of a copy -/

theorem Copy.note (h : Copy I f g) : I f.note.id g.note.id := by
  cases h with
  | atom hnote _ => exact hnote
  | prefixed _ hnote _ => exact hnote
  | seq _ hnote _ => exact hnote

theorem Copy.isSemantic (h : Copy I f g) : g.isSemantic = f.isSemantic :=
  Form.Echoes.isSemantic (fun _ _ _ h => h) h

theorem Copy.isNewline (h : Copy I f g) : g.isNewline = f.isNewline :=
  (Form.Echoes.kind (fun _ _ _ h => h) h).1

theorem Copy.symbol (h : Copy I f g) : g.shape.symbol? = f.shape.symbol? :=
  (Form.Echoes.texts (fun _ _ _ h => h) h).1

theorem Copy.keyword (h : Copy I f g) : g.shape.keyword? = f.shape.keyword? :=
  (Form.Echoes.texts (fun _ _ _ h => h) h).2.1

theorem Copy.string (h : Copy I f g) : g.shape.string?.isSome = f.shape.string?.isSome :=
  (Form.Echoes.texts (fun _ _ _ h => h) h).2.2

theorem Copy.list (h : Copy I f g) :
    Option.Rel (CopyAll I true) f.shape.list? g.shape.list? := by
  cases h with
  | atom _ _ => exact .none
  | prefixed _ _ _ => exact .none
  | seq b _ hitems =>
    cases b with
    | list => exact .some hitems
    | _ => exact .none

theorem Copy.vector (h : Copy I f g) :
    Option.Rel (CopyAll I true) f.shape.vector? g.shape.vector? := by
  cases h with
  | atom _ _ => exact .none
  | prefixed _ _ _ => exact .none
  | seq b _ hitems =>
    cases b with
    | vector => exact .some hitems
    | _ => exact .none

theorem Copy.listOrVector (h : Copy I f g) :
    Option.Rel (CopyAll I true) f.shape.listOrVector? g.shape.listOrVector? := by
  cases h with
  | atom _ _ => exact .none
  | prefixed _ _ _ => exact .none
  | seq b _ hitems =>
    cases b with
    | list => exact .some hitems
    | vector => exact .some hitems
    | _ => exact .none

theorem CopyAll.head (h : CopyAll I closed fs gs) : Option.Rel (Copy I) fs.head? gs.head? := by
  cases h with
  | nil => exact .none
  | keep hf _ _ => exact .some hf
  | insert _ hf _ _ => exact .some hf

/-- What is related goes on to what is related. -/
theorem rel_bind {α β γ δ : Type} {R : α → β → Prop} {S : γ → δ → Prop} {o : Option α}
    {o' : Option β} {k : α → Option γ} {k' : β → Option δ} (h : Option.Rel R o o')
    (hk : ∀ a b, R a b → Option.Rel S (k a) (k' b)) : Option.Rel S (o.bind k) (o'.bind k') := by
  cases h with
  | none => exact .none
  | some hab => exact hk _ _ hab

theorem bind_eq_of_rel {α β γ : Type} {R : α → β → Prop} {o : Option α} {o' : Option β}
    {k : α → Option γ} {k' : β → Option γ} (h : Option.Rel R o o')
    (hk : ∀ a b, R a b → k' b = k a) : o'.bind k' = o.bind k := by
  cases h with
  | none => rfl
  | some hab => exact hk _ _ hab

theorem rel_of_eq {α : Type} {o o' : Option α} (h : o' = o) : Option.Rel Eq o o' := by
  subst h
  cases o' with
  | none => exact .none
  | some a => exact .some rfl

/-- Calls are copied to calls of the same name. -/
theorem Copy.call (h : Copy I f g) :
    Option.Rel (fun c c' => c.1 = c'.1 ∧ CopyAll I true c.2 c'.2) f.call? g.call? :=
  rel_bind h.list fun _ _ hitems =>
    rel_bind hitems.head fun _ _ hhead =>
      rel_bind (rel_of_eq hhead.symbol) fun _ _ hname => .some ⟨hname, hitems⟩

/-! ## 3. Items that are code -/

/-- The code among copies are the copies of the code. -/
theorem CopyAll.code (h : CopyAll I closed fs gs) :
    Forall₂ (Copy I) (fs.filter Form.isSemantic) (gs.filter Form.isSemantic) := by
  induction fs generalizing gs with
  | nil =>
    cases h
    exact .nil
  | cons f fs ih =>
    have hcons : ∀ {g gs}, Copy I f g →
        Forall₂ (Copy I) (fs.filter Form.isSemantic) (gs.filter Form.isSemantic) →
        Forall₂ (Copy I) ((f :: fs).filter Form.isSemantic) ((g :: gs).filter Form.isSemantic) := by
      intro g gs hf hrest
      rw [List.filter_cons, List.filter_cons, hf.isSemantic]
      split
      · exact .cons hf hrest
      · exact hrest
    cases h with
    | keep hf _ hrest => exact hcons hf (ih hrest)
    | insert l hf _ hrest =>
      have hcode := hcons hf (ih hrest)
      exact hcode

/-- The same behind the first item. -/
theorem CopyAll.code_drop (h : CopyAll I closed fs gs) :
    Forall₂ (Copy I) ((fs.drop 1).filter Form.isSemantic) ((gs.drop 1).filter Form.isSemantic) := by
  cases h with
  | nil => exact .nil
  | keep _ _ hrest => exact CopyAll.code hrest
  | insert _ _ _ hrest =>
    have hcode := CopyAll.code hrest
    exact hcode

/-- A fold that looks at code only does the same on a copy. -/
theorem CopyAll.foldl {α : Type} {op : α → Form Label → α}
    (hcopy : ∀ a f g, Copy I f g → op a g = op a f)
    (hbreak : ∀ a l, op a (.atom l .newline) = a) (h : CopyAll I closed fs gs) (a : α) :
    gs.foldl op a = fs.foldl op a := by
  induction fs generalizing gs a with
  | nil =>
    cases h
    rfl
  | cons f fs ih =>
    cases h with
    | keep hf _ hrest => rw [List.foldl_cons, List.foldl_cons, hcopy a f _ hf, ih hrest]
    | insert l hf _ hrest =>
      rw [List.foldl_cons, List.foldl_cons, List.foldl_cons, hcopy a f _ hf, hbreak, ih hrest]

/-! ## 4. Short names -/

theorem names_copy (h : CopyAll I closed fs gs) : Libspec.names? gs = Libspec.names? fs := by
  induction fs generalizing gs with
  | nil =>
    cases h
    rfl
  | cons f fs ih =>
    cases h with
    | keep hf _ hrest =>
      have hf : Copy I f _ := hf
      rw [Libspec.names?, Libspec.names?, hf.isSemantic, hf.symbol, ih hrest]
    | @insert _ _ g _ gs l hf _ hrest =>
      have hf : Copy I f g := hf
      have hskip : Libspec.names? (g :: .atom l .newline :: gs) = Libspec.names? (g :: gs) := rfl
      rw [hskip, Libspec.names?, Libspec.names?, hf.isSemantic, hf.symbol, ih hrest]

theorem withOptions_copy (spec : Libspec) (h : Forall₂ (Copy I) fs gs) :
    spec.withOptions? gs = spec.withOptions? fs := by
  fun_induction Libspec.withOptions? spec fs generalizing gs with
  | case1 =>
    cases h
    rfl
  | case2 =>
    cases h with
    | cons _ hnil =>
      cases hnil
      rfl
  | case3 spec key value rest has ih =>
    obtain ⟨key', later, hkey, hlater, rfl⟩ := List.forall₂_cons_left_iff.mp h
    obtain ⟨value', rest', hvalue, hrest, rfl⟩ := List.forall₂_cons_left_iff.mp hlater
    rw [Libspec.withOptions?, hkey.keyword, has]
    exact bind_eq_of_rel (rel_of_eq hvalue.symbol) fun name _ hname => hname ▸ ih name hrest
  | case4 spec key value rest hrefer ih =>
    obtain ⟨key', later, hkey, hlater, rfl⟩ := List.forall₂_cons_left_iff.mp h
    obtain ⟨value', rest', hvalue, hrest, rfl⟩ := List.forall₂_cons_left_iff.mp hlater
    rw [Libspec.withOptions?, hkey.keyword, hrefer]
    refine bind_eq_of_rel hvalue.listOrVector fun items items' hitems => ?_
    exact bind_eq_of_rel (rel_of_eq (names_copy hitems)) fun names _ hnames =>
      hnames ▸ ih names hrest
  | case5 spec key value rest has hrefer =>
    obtain ⟨key', later, hkey, hlater, rfl⟩ := List.forall₂_cons_left_iff.mp h
    obtain ⟨value', rest', -, -, rfl⟩ := List.forall₂_cons_left_iff.mp hlater
    rw [Libspec.withOptions?, hkey.keyword]
    split
    · next heq => exact absurd heq has
    · next heq => exact absurd heq hrefer
    · rfl

theorem libspec_copy (h : Copy I f g) : Libspec.ofForm? g = Libspec.ofForm? f := by
  unfold Libspec.ofForm?
  rw [h.symbol]
  split
  · rfl
  · refine bind_eq_of_rel h.listOrVector fun items items' hitems => ?_
    have hcode := hitems.code
    generalize items.filter Form.isSemantic = code at hcode
    generalize items'.filter Form.isSemantic = code' at hcode
    cases hcode with
    | nil => rfl
    | cons hfirst hoptions =>
      exact bind_eq_of_rel (rel_of_eq hfirst.symbol) fun name _ hname =>
        hname ▸ withOptions_copy _ hoptions

theorem addForm_copy (a : Aliases) (f g : Form Label) (h : Copy I f g) :
    a.addForm g = a.addForm f := by
  rw [Aliases.addForm, Aliases.addForm, libspec_copy h]

theorem addClause_copy (a : Aliases) (f g : Form Label) (h : Copy I f g) :
    a.addClause g = a.addClause f := by
  have hspecs : ∀ {closed fs gs} (a : Aliases), CopyAll I closed fs gs →
      gs.foldl Aliases.addForm a = fs.foldl Aliases.addForm a := fun a h =>
    CopyAll.foldl addForm_copy (fun _ _ => rfl) h a
  have hlist := h.list
  unfold Aliases.addClause
  generalize f.shape.list? = items? at hlist
  generalize g.shape.list? = items'? at hlist
  cases hlist with
  | none => rfl
  | some hitems =>
    cases hitems with
    | nil => rfl
    | @keep _ head head' specs specs' hhead _ hrest =>
      have hkey : head'.shape.keyword? = head.shape.keyword? := Copy.keyword hhead
      simp only [hkey]
      rw [hspecs a hrest]
    | @insert _ head head' specs specs' l hhead _ hrest =>
      have hkey : head'.shape.keyword? = head.shape.keyword? := Copy.keyword hhead
      have hskip : (Form.atom l .newline :: specs').foldl Aliases.addForm a
          = specs'.foldl Aliases.addForm a := rfl
      simp only [hkey]
      rw [hskip, hspecs a hrest]

theorem addRoot_copy (a : Aliases) (f g : Form Label) (h : Copy I f g) :
    a.addRoot g = a.addRoot f := by
  have hcall := h.call
  unfold Aliases.addRoot
  generalize f.call? = call at hcall
  generalize g.call? = call' at hcall
  cases hcall with
  | none => rfl
  | @some c c' hc =>
    obtain ⟨name, items⟩ := c
    obtain ⟨name', items'⟩ := c'
    obtain ⟨rfl, hitems⟩ := hc
    have hfold := CopyAll.foldl addClause_copy (fun _ _ => rfl) hitems a
    split
    · next heq =>
      obtain ⟨rfl, rfl⟩ : name = "ns" ∧ items' = _ := by simpa using heq
      exact hfold
    · next hother =>
      split
      · next heq =>
        obtain ⟨rfl, rfl⟩ : name = "ns" ∧ items = _ := by simpa using heq
        exact absurd rfl (hother items')
      · rfl

/-- A copy of a source gives the same short names. -/
theorem aliases_copy (h : CopyAll I closed fs gs) : Aliases.ofRoots gs = Aliases.ofRoots fs :=
  CopyAll.foldl addRoot_copy (fun _ _ => rfl) h {}

/-! ## 5. Marks -/

/-- Copies of the marked forms are marked. -/
structure Marks.Agree (I : Nat → Nat → Prop) (m m' : Marks) : Prop where
  threaded : Layout.Agree I m.threaded.contains m'.threaded.contains
  docstrings : Layout.Agree I m.docstrings.contains m'.docstrings.contains

/-- Sets agree once lists that correspond are added to them. -/
theorem agree_insertMany (hI : OneToOne I) {s s' : IdSet} {is js : List Nat}
    (h : Agree I s.contains s'.contains) (his : Forall₂ I is js) :
    Agree I (s.insertMany is).contains (s'.insertMany js).contains := by
  intro i j hij
  rw [Std.TreeSet.contains_insertMany_list, Std.TreeSet.contains_insertMany_list, h i j hij,
    hI.agree his i j hij]

theorem receivers_copy (style : ThreadFirst) (start : Nat) (h : CopyAll I closed fs gs) :
    Forall₂ I (receivers style start fs) (receivers style start gs) := by
  refine forall₂_filter_map ?_ ?_ (forall₂_zipIdx h.code 0)
  · rintro ⟨f, n⟩ ⟨g, m⟩ ⟨hf, rfl⟩
    have hf : Copy I f g := hf
    have hlist : f.shape.list?.isSome = g.shape.list?.isSome := by
      have hrel := hf.list
      generalize f.shape.list? = items? at hrel
      generalize g.shape.list? = items'? at hrel
      cases hrel <;> rfl
    simp only [hlist]
  · rintro ⟨f, n⟩ ⟨g, m⟩ ⟨hf, -⟩
    exact Copy.note hf

theorem CopyAll.dropWhile_isNewline (h : CopyAll I closed fs gs) :
    CopyAll I closed (fs.dropWhile Form.isNewline) (gs.dropWhile Form.isNewline) := by
  induction fs generalizing gs with
  | nil =>
    cases h
    exact .nil
  | cons f fs ih =>
    cases hn : f.isNewline with
    | true =>
      obtain ⟨l, rfl⟩ := Form.eq_newline hn
      cases h with
      | keep hf _ hrest =>
        have hg : Form.isNewline _ = true := (Copy.isNewline hf).trans hn
        rw [List.dropWhile_cons_of_pos hn, List.dropWhile_cons_of_pos hg]
        exact ih hrest
      | insert _ _ hbreak _ =>
        simp [needsBreak, Form.isComment, Form.shape, Shape.isComment] at hbreak
    | false =>
      have hself : ∀ {g : Form Label} {gs : List (Form Label)}, Copy I f g →
          (g :: gs).dropWhile Form.isNewline = g :: gs := by
        intro g gs hf
        exact List.dropWhile_cons_of_neg (by rw [hf.isNewline, hn]; simp)
      rw [List.dropWhile_cons_of_neg (by simp [hn])]
      cases h with
      | keep hf hbreak hrest => rw [hself hf]; exact .keep hf hbreak hrest
      | insert l hf hbreak hrest => rw [hself hf]; exact .insert l hf hbreak hrest

/-- A symbol is no comment, so no line break is put in behind it. -/
theorem CopyAll.keep_of_symbol {name : String} (h : CopyAll I closed (f :: fs) gs)
    (hsymbol : f.shape.symbol? = some name) :
    ∃ g gs', gs = g :: gs' ∧ Copy I f g ∧ CopyAll I closed fs gs' := by
  have hcomment : f.isComment = false := by
    cases f with
    | atom l x => cases x <;> simp_all [Form.isComment, Form.shape, Shape.isComment, Shape.symbol?]
    | _ => rfl
  cases h with
  | keep hf _ hrest => exact ⟨_, _, rfl, hf, hrest⟩
  | insert l _ hbreak _ => simp [needsBreak, hcomment] at hbreak

/-- The docstring of a definition is copied to the docstring of the copy. -/
theorem docstring_copy {name : String} (h : CopyAll I closed (f :: fs) gs)
    (hhead : f.shape.symbol? = some name) :
    Option.Rel I (docstring? (f :: fs)) (docstring? gs) := by
  obtain ⟨g, gs, rfl, -, hrest⟩ := h.keep_of_symbol hhead
  cases fs with
  | nil =>
    cases hrest
    exact .none
  | cons defined fs =>
    cases hsymbol : defined.shape.symbol? with
    | none =>
      have hnone : ∀ {g' gs'}, Copy I defined g' → docstring? (g :: g' :: gs') = none := by
        intro g' gs' hdefined
        simp [docstring?, hdefined.symbol, hsymbol]
      have hnone' : docstring? (f :: defined :: fs) = none := by simp [docstring?, hsymbol]
      rw [hnone']
      cases hrest with
      | keep hdefined _ _ => rw [hnone hdefined]; exact .none
      | insert _ hdefined _ _ => rw [hnone hdefined]; exact .none
    | some name' =>
      obtain ⟨defined', gs, rfl, hdefined, hrest⟩ := hrest.keep_of_symbol hsymbol
      refine rel_bind (rel_of_eq hdefined.symbol) fun _ _ _ => ?_
      refine rel_bind hrest.dropWhile_isNewline.head fun d d' hd => ?_
      have hstring : Option.Rel (fun _ _ => True) d.shape.string? d'.shape.string? := by
        have hsome := Copy.string hd
        cases hs : d.shape.string? <;> cases hs' : d'.shape.string? <;> rw [hs, hs'] at hsome
        · exact .none
        · simp at hsome
        · simp at hsome
        · exact .some trivial
      exact rel_bind hstring fun _ _ _ => .some hd.note

variable {table : IndentTable} {m m' : Marks}

theorem addCall_copy (hI : OneToOne I) (hm : Marks.Agree I m m') (h : Copy I f g) :
    Marks.Agree I (m.addCall table f) (m'.addCall table g) := by
  have hcall := h.call
  unfold Marks.addCall
  cases hf : f.call? with
  | none =>
    rw [hf] at hcall
    generalize g.call? = call' at hcall
    cases hcall
    exact hm
  | some c =>
    rw [hf] at hcall
    generalize g.call? = call' at hcall
    cases hcall with
    | @some _ c' hc =>
      obtain ⟨name, items⟩ := c
      obtain ⟨name', items'⟩ := c'
      obtain ⟨rfl, hitems⟩ := hc
      obtain ⟨_, k, rest, rfl, -⟩ := Form.call?_eq_some_iff.mp hf
      constructor
      · dsimp only
        split
        · exact hm.threaded
        · rw [hm.threaded _ _ h.note]
          exact agree_insertMany hI hm.threaded (receivers_copy _ _ hitems)
      · dsimp only
        split
        · refine agree_insertMany hI hm.docstrings ?_
          have hdoc := docstring_copy hitems rfl
          generalize docstring? (.atom k (.symbol name) :: rest) = doc at hdoc
          generalize docstring? items' = doc' at hdoc
          cases hdoc with
          | none => exact .nil
          | some hij => exact .cons hij .nil
        · exact hm.docstrings

mutual

/-- A copy of a form marks the copies of the forms that the form marks. -/
theorem add_copy (hI : OneToOne I) {m m' : Marks} (hm : Marks.Agree I m m') {f g : Form Label}
    (h : Copy I f g) : Marks.Agree I (m.add table f) (m'.add table g) :=
  match h with
  | .atom _ _ => hm
  | .prefixed _ _ hbody => by
    have hmarks := add_copy hI hm hbody
    exact hmarks
  | .seq b hnote hitems => addAll_copy hI (addCall_copy hI hm (.seq b hnote hitems)) hitems

theorem addAll_copy (hI : OneToOne I) {m m' : Marks} (hm : Marks.Agree I m m') {closed : Bool}
    {fs gs : List (Form Label)} (h : CopyAll I closed fs gs) :
    Marks.Agree I (Marks.addAll table m fs) (Marks.addAll table m' gs) :=
  match h with
  | .nil => hm
  | .keep hf _ hrest => addAll_copy hI (add_copy hI hm hf) hrest
  | .insert _ hf _ hrest => by
    have hmarks := addAll_copy hI (add_copy hI hm hf) hrest
    exact hmarks

end

/-- A copy of a source marks the copies of the forms that the source marks. -/
theorem marks_copy (hI : OneToOne I) (h : CopyAll I closed fs gs) :
    Marks.Agree I (Marks.addAll table {} fs) (Marks.addAll table {} gs) :=
  addAll_copy hI ⟨fun _ _ _ => rfl, fun _ _ _ => rfl⟩ h

end CljFormat.Layout
