/-
CljFormat.Proofs.Tree.Tidy — what the transforms leave of the line breaks of a tree.

Once a tree is rearranged, no sequence in it ends in a line break that could be dropped, if line
breaks at the end are to be dropped, and nowhere do three line breaks stand in a row, if blank lines
are (`tidy_rearrange`). This is so whatever else is enabled: neither transform is undone by the
others.

To rearrange the tree once more changes nothing, as long as no definition at the top level lacks its
name (`rearrange_rearrange`). One that does may have a line break in the place of the name:

    (defn

     [x] y)

Here the second line break is the third part and the vector the fourth, which is where the
transforms expect the two behind a name. So the vector is moved up. After the first run there can be
such a definition only because the lines between `defn` and the vector were more at first and have
been dropped meanwhile (`rearrange_nameless`).
-/
import CljFormat.Proofs.Tidy
import CljFormat.Proofs.Tree.Frame
import CljFormat.Proofs.Tree.Suppressed

namespace CljFormat.Tree

variable {options : Reader.Options} {source : String} {d : Reader.Document} {t t' : Tree}
  {parent : Option NodeId} {f : Form Label} {fs : List (Form Label)} {enabled : List Transform}

/-! ## 1. Tidy trees -/

/-- Whether a node stands for a comment. -/
def isComment (t : Tree) (id : NodeId) : Bool :=
  (t.shape? id).any Shape.isComment

theorem Holds.isComment (h : t.Holds parent f) : t.isComment f.id = f.isComment := by
  rw [Tree.isComment, h.shape, Option.any_some]
  cases f with
  | atom l x => cases x <;> rfl
  | _ => rfl

/-- Somewhere among the nodes three line breaks follow each other. -/
def ThreeBreaks (t : Tree) (ids : List NodeId) : Prop :=
  ∃ before x y z after, ids = before ++ x :: y :: z :: after ∧
    t.isBreak x = true ∧ t.isBreak y = true ∧ t.isBreak z = true

/-- A tree that has what the enabled transforms are for. -/
structure Tidy (enabled : List Transform) (t : Tree) : Prop where
  /-- A sequence that is no reader conditional ends in no line break, save one behind a comment. -/
  tight : .trailing ∈ enabled → ∀ p ∈ t.flatten, ∀ b before last,
    t.shape? p = some (.seq b (before ++ [last])) → b ≠ .readerCond → b ≠ .readerCondSplice →
    t.isBreak last = true → ∃ c ∈ before.getLast?, t.isComment c = true
  roots : .blankLines ∈ enabled → ¬ t.ThreeBreaks t.roots
  children : .blankLines ∈ enabled → ∀ p ∈ t.flatten, ¬ t.ThreeBreaks (t.children p)

/-- Nodes of sparse forms are not three line breaks in a row. -/
theorem not_threeBreaks (h : ∀ f ∈ fs, ∃ parent, t.Holds parent f)
    (hsparse : Transform.Sparse 0 fs) : ¬ t.ThreeBreaks (fs.map Form.id) := by
  rintro ⟨before, x, y, z, after, heq, hx, hy, hz⟩
  obtain ⟨front, three, rfl, -, hthree⟩ := List.map_eq_append_iff.mp heq
  obtain ⟨f, two, rfl, rfl, htwo⟩ := List.map_eq_cons_iff.mp hthree
  obtain ⟨g, one, rfl, rfl, hone⟩ := List.map_eq_cons_iff.mp htwo
  obtain ⟨k, rest, rfl, rfl, -⟩ := List.map_eq_cons_iff.mp hone
  have hbreak : ∀ e ∈ [f, g, k], t.isBreak e.id = e.isNewline := by
    intro e he
    obtain ⟨_, hheld⟩ := h e (by simp at he ⊢; tauto)
    exact hheld.isBreak
  refine hsparse.not_three ⟨?_, ?_, ?_⟩
  · rw [← hbreak f (by simp), hx]
  · rw [← hbreak g (by simp), hy]
  · rw [← hbreak k (by simp), hz]

/-- A node of tight items ends in no line break, save one behind a comment. -/
theorem Holds.tight {b : Bracket} {before : List NodeId} {last : NodeId} (h : t.Holds parent f)
    (htight : Transform.Everywhere Transform.TightIn f)
    (hshape : t.shape? f.id = some (.seq b (before ++ [last])))
    (hb : Transform.closesTight b = true) (hbreak : t.isBreak last = true) :
    ∃ c ∈ before.getLast?, t.isComment c = true := by
  rw [h.shape] at hshape
  cases f with
  | seq l b' items =>
    obtain ⟨rfl, hitems⟩ : b' = b ∧ items.map Form.id = before ++ [last] := by
      simpa [Form.shape, Shape.map] using hshape
    obtain ⟨front, final, rfl, rfl, hfinal⟩ := List.map_eq_append_iff.mp hitems
    obtain ⟨k, rfl, rfl⟩ := List.map_eq_singleton_iff.mp hfinal
    have hk : k.isNewline = true := by
      rw [← (h.items k (by simp)).isBreak, hbreak]
    obtain ⟨c, hc, hcomment⟩ :=
      Transform.tight_concat.mp ((Transform.everywhere_seq.mp htight).1 hb) hk
    have hmem : c ∈ front ++ [k] := List.mem_append_left _ (List.mem_of_mem_getLast? hc)
    refine ⟨c.id, ?_, by rw [(h.items c hmem).isComment, hcomment]⟩
    rw [List.getLast?_map]
    exact Option.mem_map_of_mem Form.id hc
  | _ => simp [Form.shape, Shape.map] at hshape

/-- Rearranging the forms of a tree by the transforms leaves a tidy tree. -/
theorem tidy_of_represents (h : t.Represents (Transform.applyAll enabled fs)) :
    t.Tidy enabled where
  tight htrailing p hp b before last hshape hb hb' hbreak := by
    obtain ⟨f, hf, g, hg, rfl⟩ := (mem_flatten_iff h).mp hp
    obtain ⟨_, hheld⟩ := (h.holds f hf).below hg
    have htight := (Transform.tight_applyAll htrailing hf).of_mem_nodes hg
    exact hheld.tight htight hshape (by cases b <;> first | rfl | contradiction) hbreak
  roots hblank := by
    rw [h.roots]
    exact not_threeBreaks (fun f hf => ⟨none, h.holds f hf⟩)
      (Transform.sparse_applyAll hblank fs).1
  children hblank p hp := by
    obtain ⟨f, hf, g, hg, rfl⟩ := (mem_flatten_iff h).mp hp
    obtain ⟨_, hheld⟩ := (h.holds f hf).below hg
    have hsparse := ((Transform.sparse_applyAll hblank fs).2 f hf).of_mem_nodes hg
    rw [hheld.children]
    refine not_threeBreaks (fun k hk => ⟨_, hheld.part hk⟩) ?_
    cases g with
    | atom l x => trivial
    | prefixed l s body =>
      show Transform.Sparse 0 [body]
      cases hbody : body.isNewline <;> simp [Transform.Sparse, hbody]
    | seq l b items => exact (Transform.everywhere_seq.mp hsparse).1

/-- The transforms reach what they are for, in every combination of them. -/
theorem tidy_rearrange (h : Reader.read options source = .ok d) (enabled : List Transform) :
    ∃ t', (ofDocument d).rearrange enabled = .ok t' ∧ t'.Tidy enabled := by
  obtain ⟨t', hok, hrepresents⟩ := represents_rearrange (represents_ofDocument h) enabled
  exact ⟨t', hok, tidy_of_represents hrepresents⟩

/-- Line breaks at the end of a list that a reader conditional and a quote stand around, one behind
a comment, and blank lines everywhere, together with a vector that is moved up. -/
theorem tidy_rearrange_definition :
    ∃ d t', Reader.read .everything
        "(defn f\n\n\n\n[x] #?(:clj '(x\n\n)\n) ; c\n\n)\n\n\n\ny" = .ok d ∧
      (ofDocument d).rearrange Transform.all = .ok t' ∧ t'.Tidy Transform.all := by
  have hread : ∃ d, Reader.read .everything
      "(defn f\n\n\n\n[x] #?(:clj '(x\n\n)\n) ; c\n\n)\n\n\n\ny" = .ok d := ⟨_, rfl⟩
  obtain ⟨d, hread⟩ := hread
  obtain ⟨t', hok, htidy⟩ := tidy_rearrange hread Transform.all
  exact ⟨d, t', hread, hok, htidy⟩

/-! ## 2. A second run -/

/-- A call of `name` that has two line breaks behind its first part, the second of them before two
nodes that call for a move. -/
def NamelessCall (name : String) (moves : NodeId → NodeId → Prop) (t : Tree) (root : NodeId) :
    Prop :=
  t.isCallOf name root = true ∧ ∃ head gap br x y rest,
    t.children root = head :: gap :: br :: x :: y :: rest ∧
    t.isBreak gap = true ∧ t.isBreak br = true ∧ moves x y

/-- A definition at the top level that has a line break in the place of its name, where an enabled
transform moves the next line break. -/
def Nameless (enabled : List Transform) (t : Tree) (root : NodeId) : Prop :=
  (.defnArglist ∈ enabled ∧ t.NamelessCall "defn"
      (fun x y => (t.shape? x).any (·.vector?.isSome) = true ∧ t.isBreak y = false) root) ∨
    (.defmethodDispatch ∈ enabled ∧ t.NamelessCall "defmethod"
      (fun x _ => (t.shape? x).any (·.keyword?.isSome) = true) root)

theorem Holds.vector (h : t.Holds parent f) :
    (t.shape? f.id).any (·.vector?.isSome) = f.shape.vector?.isSome := by
  rw [h.shape, Option.any_some]
  cases f with
  | seq l b items => cases b <;> rfl
  | _ => rfl

theorem Holds.keyword (h : t.Holds parent f) :
    (t.shape? f.id).any (·.keyword?.isSome) = f.shape.keyword?.isSome := by
  rw [h.shape, Option.any_some]
  cases f with
  | atom l x => cases x <;> rfl
  | _ => rfl

theorem Holds.namelessCall_iff (h : t.Holds parent f) {name : String}
    {moves : NodeId → NodeId → Prop} {moves' : Form Label → Form Label → Prop}
    (hmoves : ∀ x ∈ f.parts, ∀ y ∈ f.parts, moves x.id y.id ↔ moves' x y) :
    t.NamelessCall name moves f.id ↔ Transform.NamelessCall name moves' f := by
  unfold NamelessCall Transform.NamelessCall
  rw [h.isCallOf, h.children]
  refine and_congr_right fun _ => ⟨?_, ?_⟩
  · rintro ⟨_, _, _, _, _, _, heq, hgap, hbr, hxy⟩
    obtain ⟨head, _, hparts, rfl, heq₁⟩ := List.map_eq_cons_iff.mp heq
    obtain ⟨gap, _, rfl, rfl, heq₂⟩ := List.map_eq_cons_iff.mp heq₁
    obtain ⟨br, _, rfl, rfl, heq₃⟩ := List.map_eq_cons_iff.mp heq₂
    obtain ⟨x, _, rfl, rfl, heq₄⟩ := List.map_eq_cons_iff.mp heq₃
    obtain ⟨y, rest, rfl, rfl, -⟩ := List.map_eq_cons_iff.mp heq₄
    refine ⟨head, gap, br, x, y, rest, hparts, ?_, ?_, ?_⟩
    · rw [← (h.part (by simp [hparts])).isBreak, hgap]
    · rw [← (h.part (by simp [hparts])).isBreak, hbr]
    · exact (hmoves x (by simp [hparts]) y (by simp [hparts])).mp hxy
  · rintro ⟨head, gap, br, x, y, rest, hparts, hgap, hbr, hxy⟩
    refine ⟨head.id, gap.id, br.id, x.id, y.id, rest.map Form.id, by simp [hparts], ?_, ?_, ?_⟩
    · rw [(h.part (by simp [hparts])).isBreak, hgap]
    · rw [(h.part (by simp [hparts])).isBreak, hbr]
    · exact (hmoves x (by simp [hparts]) y (by simp [hparts])).mpr hxy

theorem Holds.nameless_iff (h : t.Holds parent f) :
    t.Nameless enabled f.id ↔ Transform.Nameless enabled f := by
  refine or_congr (and_congr_right fun _ => ?_) (and_congr_right fun _ => ?_)
  · refine h.namelessCall_iff fun x hx y hy => ?_
    rw [(h.part hx).vector, (h.part hy).isBreak]
    rfl
  · refine h.namelessCall_iff fun x hx y hy => ?_
    rw [(h.part hx).keyword]
    rfl

/-- Two trees with the same roots and the same parts everywhere. -/
def SameParts (t t' : Tree) : Prop :=
  t'.roots = t.roots ∧ ∀ p ∈ t.flatten, t'.children p = t.children p

theorem sameParts_of_represents (h : t.Represents fs) (h' : t'.Represents fs) :
    SameParts t t' := by
  refine ⟨h'.roots.trans h.roots.symm, fun p hp => ?_⟩
  obtain ⟨f, hf, g, hg, rfl⟩ := (mem_flatten_iff h).mp hp
  obtain ⟨_, hheld⟩ := (h.holds f hf).below hg
  obtain ⟨_, hheld'⟩ := (h'.holds f hf).below hg
  rw [hheld.children, hheld'.children]

/-- A second run puts another part in the place of the second line break of a definition without a
name. -/
theorem not_sameParts_of_nameless (h : t.Represents (Transform.applyAll enabled fs))
    (h' : t'.Represents (Transform.applyAll enabled (Transform.applyAll enabled fs)))
    (hf : f ∈ Transform.applyAll enabled fs) (hnameless : Transform.Nameless enabled f) :
    ¬ SameParts t t' := by
  rintro ⟨-, hchildren⟩
  obtain ⟨k, -, rfl⟩ := Transform.exists_applyEach_of_mem hf
  obtain ⟨head, gap, br, x, rest, rest', hparts, hbr, hx, hagain⟩ :=
    Transform.parts_applyEach_of_nameless hnameless
  generalize Transform.applyEach enabled k = f at *
  have hcode : (Transform.applyEach enabled f).isNewline = false := by
    cases hbreak : (Transform.applyEach enabled f).isNewline with
    | false => rfl
    | true =>
      obtain ⟨l, hl⟩ := Form.eq_newline hbreak
      rw [hl] at hagain
      cases hagain
  have hid : (Transform.applyEach enabled f).id = f.id := by
    rw [← Transform.foldl_applyTo]
    exact (prunes_foldl _).id f
  have hheld := h.holds f hf
  have hheld' := h'.holds _ (Transform.applyEach_mem_applyAll hf hcode)
  have hreached : f.id ∈ t.flatten :=
    (mem_flatten_iff h).mpr ⟨f, hf, f, f.self_mem_nodes, rfl⟩
  have heq := hchildren f.id hreached
  rw [hheld.children, ← hid, hheld'.children, hparts, hagain] at heq
  have hsame : x.id = br.id := by simp_all
  have hisBreak : t.isBreak br.id = true := by rw [(hheld.part (by simp [hparts])).isBreak, hbr]
  rw [← hsame, (hheld.part (by simp [hparts])).isBreak, hx] at hisBreak
  contradiction

/-- To rearrange the tree of a source once more changes no parts and no roots, unless a definition
in it is without a name, and then it does. -/
theorem rearrange_rearrange (h : Reader.read options source = .ok d) (enabled : List Transform) :
    ∃ t' t'', (ofDocument d).rearrange enabled = .ok t' ∧ t'.rearrange enabled = .ok t'' ∧
      (SameParts t' t'' ↔ ∀ root ∈ t'.roots, ¬ t'.Nameless enabled root) := by
  obtain ⟨t', hok, hrepresents⟩ := represents_rearrange (represents_ofDocument h) enabled
  obtain ⟨t'', hagain, hrepresents'⟩ := represents_rearrange hrepresents enabled
  have hnameless : ∀ f ∈ Transform.applyAll enabled d.roots,
      t'.Nameless enabled f.id ↔ Transform.Nameless enabled f :=
    fun f hf => (hrepresents.holds f hf).nameless_iff
  refine ⟨t', t'', hok, hagain, fun hsame root hroot hroot' => ?_, fun hnone => ?_⟩
  · rw [hrepresents.roots] at hroot
    obtain ⟨f, hf, rfl⟩ := List.mem_map.mp hroot
    exact not_sameParts_of_nameless hrepresents hrepresents' hf ((hnameless f hf).mp hroot') hsame
  · rw [Transform.applyAll_applyAll] at hrepresents'
    · exact sameParts_of_represents hrepresents hrepresents'
    · intro f hf hf'
      refine hnone f.id ?_ ((hnameless f hf).mpr hf')
      rw [hrepresents.roots]
      exact List.mem_map_of_mem hf

/-- A definition that has its name is left alone by a second run, whatever was moved before. -/
theorem rearrange_rearrange_named :
    ∃ d t' t'', Reader.read .everything "(defn f\n\n\n\n[x] y\n)" = .ok d ∧
      (ofDocument d).rearrange Transform.all = .ok t' ∧
      t'.rearrange Transform.all = .ok t'' ∧ SameParts t' t'' := by
  have hfirst : ∃ d t', Reader.read .everything "(defn f\n\n\n\n[x] y\n)" = .ok d ∧
      (ofDocument d).rearrange Transform.all = .ok t' ∧
      ∀ root ∈ t'.roots, ∀ name ∈ (t'.children root)[1]?, t'.isBreak name = false :=
    ⟨_, _, rfl, rfl, by decide⟩
  obtain ⟨d, t, hread, hfirst, hnamed⟩ := hfirst
  obtain ⟨t', t'', hok, hagain, hsame⟩ := rearrange_rearrange hread Transform.all
  obtain rfl : t = t' := Except.ok.inj (hfirst.symm.trans hok)
  refine ⟨d, t, t'', hread, hok, hagain, hsame.mpr fun root hroot => ?_⟩
  have hno : ∀ name moves, ¬ t.NamelessCall name moves root := by
    rintro name moves ⟨-, head, gap, br, x, y, rest, hchildren, hgap, -⟩
    rw [hnamed root hroot gap (by rw [hchildren]; rfl)] at hgap
    contradiction
  rintro (⟨-, hcall⟩ | ⟨-, hcall⟩)
  · exact hno _ _ hcall
  · exact hno _ _ hcall

/-- A definition without a name is not: the first run drops a line break, the second moves one. -/
theorem rearrange_nameless :
    ∃ d t' t'', Reader.read .everything "(defn\n\n\n[x] y)" = .ok d ∧
      (ofDocument d).rearrange [.defnArglist, .blankLines] = .ok t' ∧
      t'.rearrange [.defnArglist, .blankLines] = .ok t'' ∧
      ∃ root ∈ t'.roots, t''.children root ≠ t'.children root :=
  ⟨_, _, _, rfl, rfl, rfl, by decide⟩

end CljFormat.Tree
