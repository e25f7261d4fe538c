/-
CljFormat.Proofs.Form.Comments — the comments in a form.

The comments of a form are those of its tokens (`commentTexts_spellings`), since nothing but a
comment is written as one: the exception, a tag such as `# !x` that is written `#!x`, is not clear.
They survive whatever happens to line breaks and to the texts of strings, be it a transform
(`comments_applyAll`) or a round trip (`Echoes.comments`).
-/
import CljFormat.Proofs.Form.Echo
import CljFormat.Proofs.Transform

namespace CljFormat

variable {α β : Type}

/-- The text of an atom that is a comment. -/
def Atom.comment? : Atom → Option String
  | comment text => some text
  | _ => none

/-- The text of a token that is a comment. -/
def Spelling.comment? : Spelling → Option String
  | (.comment, text) => some text
  | _ => none

/-- The texts of the comments among tokens. -/
def commentTexts (ts : List Spelling) : List String :=
  ts.filterMap Spelling.comment?

namespace Form

/-- The texts of comments. -/
def Extract.comments : Extract String where
  ofAtom x := x.comment?.toList
  ofSigil _ := []

/-- The texts of the comments in a form, in document order. -/
def comments (f : Form α) : List String :=
  Extract.comments.ofForm f

@[simp] theorem comments_atom (note : α) (x : Atom) :
    comments (.atom note x) = x.comment?.toList :=
  Extract.comments.ofForm_atom note x

@[simp] theorem comments_prefixed (note : α) (s : Sigil) (body : Form α) :
    comments (.prefixed note s body) = body.comments := rfl

@[simp] theorem comments_seq (note : α) (b : Bracket) (items : List (Form α)) :
    comments (.seq note b items) = items.flatMap comments :=
  Extract.comments.ofForm_seq note b items

/-! ## 1. Tokens -/

theorem commentTexts_append (ts us : List Spelling) :
    commentTexts (ts ++ us) = commentTexts ts ++ commentTexts us :=
  List.filterMap_append

theorem commentTexts_atom {x : Atom} (h : x.Clear) :
    commentTexts x.spellings = x.comment?.toList := by
  cases x with
  | tag text =>
    refine List.filterMap_eq_nil_iff.mpr fun t ht => ?_
    have hkind := h.2 t ht
    obtain ⟨kind, text⟩ := t
    cases kind <;> first | rfl | exact absurd rfl hkind
  | bool value => cases value <;> rfl
  | _ => rfl

theorem commentTexts_sigil (s : Sigil) : commentTexts s.spellings = [] := by
  cases s <;> rfl

theorem commentTexts_open (b : Bracket) : commentTexts b.openSpellings = [] := by
  cases b with
  | map namespace? => cases namespace? <;> rfl
  | _ => rfl

theorem commentTexts_flatMap {fs : List (Form α)}
    (h : ∀ f ∈ fs, commentTexts f.spellings = f.comments) :
    commentTexts (fs.flatMap spellings) = fs.flatMap comments := by
  rw [commentTexts, List.filterMap_flatMap]
  exact List.flatMap_congr h

/-- The comments among the tokens of a form are its comments. -/
theorem commentTexts_spellings {f : Form α} (hclear : ∀ g ∈ f.nodes, g.Clear) :
    commentTexts f.spellings = f.comments := by
  induction f using Form.induct with
  | atom note x => simpa using commentTexts_atom (hclear _ (self_mem_nodes _))
  | prefixed note s body ih =>
    have hbody := ih fun g hg => hclear g (mem_nodes_of_body hg)
    rw [spellings_prefixed, comments_prefixed, commentTexts_append, commentTexts_sigil, hbody]
    rfl
  | seq note b items ih =>
    have hitems := commentTexts_flatMap fun f hf =>
      ih f hf fun g hg => hclear g (mem_nodes_of_mem hf hg)
    rw [spellings_seq, comments_seq, commentTexts_append, commentTexts_append, commentTexts_open,
      hitems]
    exact List.append_nil _

end Form

/-! ## 2. Line breaks -/

/-- No transform loses a comment or makes one. -/
theorem Transform.comments_applyAll (enabled : List Transform) (roots : List (Form α)) :
    (applyAll enabled roots).flatMap Form.comments = roots.flatMap Form.comments :=
  ofForm_applyAll (e := Form.Extract.comments) rfl enabled roots

/-! ## 3. Round trips -/

namespace Form

variable {R : α → β → Prop} {A : α → Atom → Atom → Prop}

mutual

/-- What comes back has the comments of the form. -/
theorem Echoes.comments {f : Form α} {g : Form β} (h : Echoes R A f g)
    (hA : ∀ l x y, A l x y → x.Alike y) : g.comments = f.comments :=
  match h with
  | .atom _ hatom => by
    rcases hA _ _ _ hatom with rfl | ⟨text, text', rfl, rfl⟩
    · simp
    · rfl
  | .prefixed _ _ hbody => hbody.comments hA
  | .seq _ _ hitems => by rw [comments_seq, comments_seq, hitems.comments hA]

theorem EchoesAll.comments {closed : Bool} {fs : List (Form α)} {gs : List (Form β)}
    (h : EchoesAll R A closed fs gs) (hA : ∀ l x y, A l x y → x.Alike y) :
    gs.flatMap Form.comments = fs.flatMap Form.comments :=
  match h with
  | .nil => rfl
  | .keep hf _ hrest => by
    rw [List.flatMap_cons, List.flatMap_cons, hf.comments hA, hrest.comments hA]
  | .insert _ hf _ hrest => by
    rw [List.flatMap_cons, List.flatMap_cons, List.flatMap_cons, hf.comments hA, hrest.comments hA]
    rfl

end

/-- What comes back has no tag that the forms did not have. -/
theorem EchoesAll.clear {closed : Bool} {fs : List (Form α)} {gs : List (Form β)}
    (h : EchoesAll R A closed fs gs) (hA : ∀ l x y, A l x y → x.Alike y)
    (hclear : ∀ f ∈ nodesAll fs, f.Clear) : ∀ g ∈ nodesAll gs, g.Clear := by
  intro g hg
  rw [nodesAll_eq_flatMap] at hg
  rcases h.nodes hg with hbreak | ⟨f, hf, hecho⟩
  · obtain ⟨note, rfl⟩ := eq_newline hbreak
    trivial
  · rw [← nodesAll_eq_flatMap] at hf
    cases hecho with
    | atom _ hatom =>
      rcases hA _ _ _ hatom with rfl | ⟨text, text', rfl, rfl⟩
      · exact hclear _ hf
      · trivial
    | _ => trivial

end Form

end CljFormat
