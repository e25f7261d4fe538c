/-
CljFormat.Proofs.Tidy — what the transforms leave behind, and what they find when they run again.

`trailing` leaves no line break in front of a closing delimiter (`Tight`) and `blankLines` no two
blank lines in a row (`Sparse`). The two transforms that move a line break run in between. They put
something that is no line break behind the one they move, so a tight sequence stays tight, and
blank lines are dropped last of all. Hence all of them together reach what each is for
(`tight_applyAll`, `sparse_applyAll`).

What is tight or sparse is left alone by the transform that makes it so. A list to which a transform
that moves line breaks was applied is left alone by it too. But dropping blank lines comes later and
may bring such a list back to where a move applies. This takes a list without a name, as in

    (defn


      [x] y)

where dropping the third line break makes the vector the fourth item (`Nameless`). A second run then
moves it, and this is the only case in which a second run changes anything (`applyAll_applyAll`,
`parts_applyEach_of_nameless`).
-/
import CljFormat.Proofs.Tree.Rearrange

namespace CljFormat.Transform

variable {α : Type} {f g : Form α} {fs gs : List (Form α)}

/-! ## 1. Line breaks at the end -/

/-- The items end in no line break, save one behind a comment. -/
def Tight (fs : List (Form α)) : Prop :=
  ∀ before last, fs = before ++ [last] → last.isNewline = true →
    ∃ f ∈ before.getLast?, f.isComment = true

theorem isNewline_of_isComment (h : f.isComment = true) : f.isNewline = false := by
  cases f with
  | atom note x => cases x <;> simp_all [Form.isComment, Form.isNewline, Form.shape,
      Shape.isComment, Shape.isNewline]
  | _ => rfl

theorem tight_concat {before : List (Form α)} {last : Form α} :
    Tight (before ++ [last]) ↔
      (last.isNewline = true → ∃ f ∈ before.getLast?, f.isComment = true) := by
  refine ⟨fun h => h before last rfl, fun h front final heq => ?_⟩
  obtain ⟨rfl, hend⟩ := List.append_inj' heq rfl
  obtain rfl : last = final := by simpa using hend
  exact h

/-- What stands before an item that is no line break does not matter to tightness. -/
theorem tight_append_cons (hf : f.isNewline = false) (before rest : List (Form α)) :
    Tight (before ++ f :: rest) ↔ Tight (f :: rest) := by
  rcases List.eq_nil_or_concat rest with rfl | ⟨rest, last, rfl⟩
  · have hsingle := @tight_concat α [] f
    rw [List.nil_append] at hsingle
    rw [tight_concat, hsingle]
    simp [hf]
  · have hcons : before ++ f :: (rest ++ [last]) = (before ++ f :: rest) ++ [last] := by simp
    rw [List.concat_eq_append, hcons, ← List.cons_append, tight_concat, tight_concat]
    simp

/-- Only what the items are one by one matters to tightness. -/
theorem tight_map {k : Form α → Form α} (hk : ∀ f, (k f).shape.head = f.shape.head) :
    Tight (fs.map k) ↔ Tight fs := by
  rcases List.eq_nil_or_concat fs with rfl | ⟨before, last, rfl⟩
  · rfl
  · rw [List.concat_eq_append, List.map_append, List.map_singleton, tight_concat, tight_concat,
      isNewline_of_head (hk last), List.getLast?_map]
    simp [isComment_of_head (hk _)]

/-- Tight items end in one that is no line break, or in a comment and a line break. -/
theorem Tight.cases (h : Tight fs) :
    fs = [] ∨ ∃ before f rest, fs = before ++ f :: rest ∧ f.isNewline = false ∧
      rest.length ≤ 1 ∧ Tight (f :: rest) := by
  rcases List.eq_nil_or_concat fs with rfl | ⟨before, last, rfl⟩
  · exact .inl rfl
  · right
    rw [List.concat_eq_append] at h ⊢
    cases hlast : last.isNewline with
    | false => exact ⟨before, last, [], rfl, hlast, by simp, (tight_append_cons hlast _ _).mp h⟩
    | true =>
      obtain ⟨f, hf, hcomment⟩ := tight_concat.mp h hlast
      obtain ⟨front, rfl⟩ := List.getLast?_eq_some_iff.mp hf
      have hcode : f.isNewline = false := isNewline_of_isComment hcomment
      rw [List.append_assoc] at h ⊢
      exact ⟨front, f, [last], rfl, hcode, by simp, (tight_append_cons hcode _ _).mp h⟩

/-- Dropping the line breaks at the end leaves none there. -/
theorem tight_dropTrailingBreaks (fs : List (Form α)) : Tight (dropTrailingBreaks fs) := by
  have hfirst : ∀ gs : List (Form α), ∀ f rest, dropLeadingBreaks gs = f :: rest →
      f.isNewline = true → ∃ g ∈ rest.head?, g.isComment = true := by
    intro gs
    fun_induction dropLeadingBreaks gs with
    | case1 => simp
    | case2 => simp
    | case3 f h => simp_all
    | case4 _ _ _ _ ih => exact ih
    | case5 f g rest h =>
      intro _ _ heq hbreak
      obtain ⟨rfl, rfl⟩ := List.cons.inj heq
      exact ⟨g, rfl, by simpa [hbreak] using h⟩
  intro before last heq hbreak
  rw [dropTrailingBreaks, List.reverse_eq_iff, List.reverse_append] at heq
  obtain ⟨f, hf, hcomment⟩ := hfirst _ _ _ heq hbreak
  exact ⟨f, by simpa using hf, hcomment⟩

/-- Tight items have nothing to drop at the end. -/
theorem dropTrailingBreaks_of_tight (h : Tight fs) : dropTrailingBreaks fs = fs := by
  have hnone : dropLeadingBreaks fs.reverse = fs.reverse := by
    rcases List.eq_nil_or_concat fs with rfl | ⟨before, last, rfl⟩
    · rfl
    · rw [List.concat_eq_append] at h ⊢
      have hlast := tight_concat.mp h
      rcases List.eq_nil_or_concat before with rfl | ⟨before, f, rfl⟩
      · have hcode : ¬ last.isNewline = true := by simpa using hlast
        simp [dropLeadingBreaks, hcode]
      · have hcomment : last.isNewline = true → f.isComment = true := by simpa using hlast
        cases hbreak : last.isNewline <;> simp_all [dropLeadingBreaks]
  rw [dropTrailingBreaks, hnone, List.reverse_reverse]

/-! ## 2. Blank lines -/

/-- No more than two line breaks come in a row, if `seen` of them came before. -/
def Sparse : Nat → List (Form α) → Prop
  | _, [] => True
  | seen, f :: rest =>
    if f.isNewline then seen < 2 ∧ Sparse (seen + 1) rest else Sparse 0 rest

theorem Sparse.of_succ {seen : Nat} (h : Sparse (seen + 1) fs) : Sparse seen fs := by
  induction fs generalizing seen with
  | nil => trivial
  | cons f rest ih =>
    unfold Sparse at h ⊢
    split at h
    · next hbreak =>
      rw [if_pos hbreak]
      exact ⟨by omega, ih h.2⟩
    · next hcode =>
      rw [if_neg hcode]
      exact h

theorem sparse_collapseAfter (seen : Nat) (fs : List (Form α)) :
    Sparse seen (collapseAfter seen fs) := by
  fun_induction collapseAfter seen fs with
  | case1 => trivial
  | case2 seen f rest hbreak hfew ih =>
    rw [Sparse, if_pos hbreak]
    exact ⟨hfew, ih⟩
  | case3 seen f rest hbreak hmany ih => exact ih.of_succ
  | case4 seen f rest hcode ih =>
    rw [Sparse, if_neg hcode]
    exact ih

theorem collapseAfter_of_sparse {seen : Nat} (h : Sparse seen fs) :
    collapseAfter seen fs = fs := by
  induction fs generalizing seen with
  | nil => rfl
  | cons f rest ih =>
    unfold Sparse at h
    unfold collapseAfter
    split at h
    · next hbreak => rw [if_pos hbreak, if_pos h.1, ih h.2]
    · next hcode => rw [if_neg hcode, ih h]

/-- Sparse items nowhere have three line breaks in a row. -/
theorem Sparse.not_three {seen : Nat} {before after : List (Form α)} {x y z : Form α}
    (h : Sparse seen (before ++ x :: y :: z :: after)) :
    ¬ (x.isNewline = true ∧ y.isNewline = true ∧ z.isNewline = true) := by
  have hrest : ∃ seen', Sparse seen' (x :: y :: z :: after) := by
    induction before generalizing seen with
    | nil => exact ⟨seen, h⟩
    | cons f before ih =>
      rw [List.cons_append, Sparse] at h
      split at h
      · exact ih h.2
      · exact ih h
  rintro ⟨hx, hy, hz⟩
  obtain ⟨seen', hthree⟩ := hrest
  simp only [Sparse, hx, hy, hz, if_true] at hthree
  omega

/-- Line breaks are dropped on both sides of an item that is none, each side for itself. -/
theorem collapseAfter_append_cons (hf : f.isNewline = false) (seen : Nat)
    (before rest : List (Form α)) :
    collapseAfter seen (before ++ f :: rest) = collapseAfter seen before ++ f :: collapse rest := by
  induction before generalizing seen with
  | nil => simp [collapseAfter, collapse, hf]
  | cons g before ih =>
    simp only [List.cons_append, collapseAfter, ih]
    split
    · split <;> rfl
    · rfl

/-- Dropping blank lines keeps items tight. -/
theorem Tight.collapse (h : Tight fs) : Tight (collapse fs) := by
  rcases h.cases with rfl | ⟨before, f, rest, rfl, hf, hlength, hrest⟩
  · exact h
  · rw [Transform.collapse, collapseAfter_append_cons hf, collapse_of_length_le (by omega)]
    exact (tight_append_cons hf _ _).mpr hrest

/-! ## 3. Sequences anywhere in a form -/

/-- The items of every sequence in a form are so. -/
def Everywhere (P : Bracket → List (Form α) → Prop) (f : Form α) : Prop :=
  ∀ note b items, .seq note b items ∈ f.nodes → P b items

/-- Every closing delimiter that is pulled up stands behind tight items. -/
def TightIn (b : Bracket) (items : List (Form α)) : Prop :=
  closesTight b = true → Tight items

def SparseIn (_ : Bracket) (items : List (Form α)) : Prop :=
  Sparse 0 items

variable {P : Bracket → List (Form α) → Prop} {note : α} {b : Bracket} {items : List (Form α)}

theorem Everywhere.of_mem_nodes (h : Everywhere P f) (hg : g ∈ f.nodes) : Everywhere P g :=
  fun note b items hmem => h note b items (Form.mem_nodes_trans hg hmem)

theorem everywhere_atom {x : Atom} : Everywhere P (.atom note x) := by
  intro note' b items hmem
  simp at hmem

theorem everywhere_prefixed {s : Sigil} {body : Form α} :
    Everywhere P (.prefixed note s body) ↔ Everywhere P body := by
  simp [Everywhere]

theorem everywhere_seq :
    Everywhere P (.seq note b items) ↔ P b items ∧ ∀ f ∈ items, Everywhere P f := by
  simp only [Everywhere, Form.nodes_seq, List.mem_cons, List.mem_flatMap]
  constructor
  · intro h
    exact ⟨h note b items (.inl rfl), fun f hf note' b' items' hmem =>
      h note' b' items' (.inr ⟨f, hf, hmem⟩)⟩
  · rintro ⟨hself, hbelow⟩ note' b' items' (heq | ⟨f, hf, hmem⟩)
    · cases heq
      exact hself
    · exact hbelow f hf note' b' items' hmem

/-! ## 4. What each transform makes so, and what it keeps so -/

theorem everywhere_pullUp (f : Form α) : Everywhere TightIn (pullUp f) := by
  induction f using Form.induct with
  | atom note x => exact everywhere_atom
  | prefixed note s body ih => exact everywhere_prefixed.mpr ih
  | seq note b items ih =>
    rw [pullUp, pullUpAll_eq_map, everywhere_seq]
    refine ⟨fun htight => ?_, fun g hg => ?_⟩
    · rw [if_pos htight]
      exact tight_dropTrailingBreaks _
    · have hmem : g ∈ items.map pullUp := by
        split at hg
        · exact (arrangement_dropTrailingBreaks.subperm _).subset hg
        · exact hg
      obtain ⟨f, hf, rfl⟩ := List.mem_map.mp hmem
      exact ih f hf

theorem pullUp_of_tight (h : Everywhere TightIn f) : pullUp f = f := by
  induction f using Form.induct with
  | atom note x => rfl
  | prefixed note s body ih => rw [pullUp, ih (everywhere_prefixed.mp h)]
  | seq note b items ih =>
    obtain ⟨hself, hbelow⟩ := everywhere_seq.mp h
    have hitems : items.map pullUp = items :=
      (List.map_congr_left fun f hf => ih f hf (hbelow f hf)).trans (List.map_id items)
    rw [pullUp, pullUpAll_eq_map, hitems]
    split
    · next htight => rw [dropTrailingBreaks_of_tight (hself htight)]
    · rfl

theorem head_squeeze (f : Form α) : (squeeze f).shape.head = f.shape.head := by
  cases f <;> rfl

/-- What holds of the items of each sequence once blank lines are dropped among them holds of all
sequences once they are dropped everywhere. -/
theorem everywhere_squeeze_of {P Q : Bracket → List (Form α) → Prop}
    (hPQ : ∀ b items, P b items → Q b (collapse (items.map squeeze))) (h : Everywhere P f) :
    Everywhere Q (squeeze f) := by
  induction f using Form.induct with
  | atom note x => exact everywhere_atom
  | prefixed note s body ih => exact everywhere_prefixed.mpr (ih (everywhere_prefixed.mp h))
  | seq note b items ih =>
    obtain ⟨hself, hbelow⟩ := everywhere_seq.mp h
    rw [squeeze, squeezeAll_eq_map, everywhere_seq]
    refine ⟨hPQ b items hself, fun g hg => ?_⟩
    obtain ⟨f, hf, rfl⟩ := List.mem_map.mp ((arrangement_collapse.subperm _).subset hg)
    exact ih f hf (hbelow f hf)

theorem tight_squeeze (h : Everywhere TightIn f) : Everywhere TightIn (squeeze f) :=
  everywhere_squeeze_of (fun _ _ hitems htight => ((tight_map head_squeeze).mpr
    (hitems htight)).collapse) h

theorem sparse_squeeze (f : Form α) : Everywhere SparseIn (squeeze f) :=
  everywhere_squeeze_of (P := fun _ _ => True) (fun _ _ _ => sparse_collapseAfter 0 _)
    fun _ _ _ _ => trivial

theorem squeeze_of_sparse (h : Everywhere SparseIn f) : squeeze f = f := by
  induction f using Form.induct with
  | atom note x => rfl
  | prefixed note s body ih => rw [squeeze, ih (everywhere_prefixed.mp h)]
  | seq note b items ih =>
    obtain ⟨hself, hbelow⟩ := everywhere_seq.mp h
    have hitems : items.map squeeze = items :=
      (List.map_congr_left fun f hf => ih f hf (hbelow f hf)).trans (List.map_id items)
    rw [squeeze, squeezeAll_eq_map, hitems, collapse, collapseAfter_of_sparse hself]

/-- An edit of one sequence that puts back the items it was given and keeps them so keeps the
sequences of the form so. -/
theorem everywhere_editCallOf {edit : List (Form α) → List (Form α)} {name : String}
    (hedit : ∀ fs, List.Subperm (edit fs) fs) (hP : ∀ b fs, P b fs → P b (edit fs))
    (h : Everywhere P f) : Everywhere P (editCallOf name edit f) := by
  unfold editCallOf
  split
  · split
    · obtain ⟨hself, hbelow⟩ := everywhere_seq.mp h
      exact everywhere_seq.mpr ⟨hP _ _ hself, fun g hg => hbelow g ((hedit _).subset hg)⟩
    · exact h
  · exact h

/-- The line break that is moved does not end up last: an item that is none stands behind it. -/
theorem Tight.raiseArglist (h : Tight fs) : Tight (raiseArglist fs) := by
  fun_cases Transform.raiseArglist fs with
  | case1 head name br args body rest hmoves =>
    have hbody : body.isNewline = false := by simp_all
    have htail : Tight (body :: rest) := (tight_append_cons hbody [head, name, br, args] rest).mp h
    exact (tight_append_cons hbody [head, name, args, br] rest).mpr htail
  | case2 => exact h
  | case3 => exact h

theorem isNewline_of_keyword (h : f.shape.keyword?.isSome = true) : f.isNewline = false := by
  cases f with
  | atom note x => cases x <;> simp_all [Form.isNewline, Form.shape, Shape.keyword?,
      Shape.isNewline]
  | _ => rfl

theorem isNewline_of_vector (h : f.shape.vector?.isSome = true) : f.isNewline = false := by
  cases f with
  | atom note x => simp [Form.shape, Shape.vector?] at h
  | _ => rfl

theorem Tight.raiseDispatch (h : Tight fs) : Tight (raiseDispatch fs) := by
  fun_cases Transform.raiseDispatch fs with
  | case1 head name br value body rest hmoves hbreak =>
    have hvalue : value.isNewline = false :=
      isNewline_of_keyword ((Bool.and_eq_true _ _).mp hmoves).2
    have htail := (tight_append_cons hvalue [head, name, br] (body :: rest)).mp h
    exact (tight_append_cons hvalue [head, name] (body :: rest)).mpr htail
  | case2 head name br value body rest hmoves hcode =>
    have hbody : body.isNewline = false := by simpa using hcode
    have htail := (tight_append_cons hbody [head, name, br, value] rest).mp h
    exact (tight_append_cons hbody [head, name, value, br] rest).mpr htail
  | case3 => exact h
  | case4 => exact h

/-! ## 5. What all of them reach -/

/-- One transform, if it is enabled. -/
def applyIf (enabled : List Transform) (x : Transform) (f : Form α) : Form α :=
  if enabled.contains x then applyTo f x else f

/-- The transforms of `enabled` on one top-level form. -/
def applyEach (enabled : List Transform) (f : Form α) : Form α :=
  applyIf enabled .blankLines (applyIf enabled .defmethodDispatch
    (applyIf enabled .defnArglist (applyIf enabled .trailing f)))

variable {enabled : List Transform}

theorem applyIf_of_mem {x : Transform} (h : x ∈ enabled) (f : Form α) :
    applyIf enabled x f = applyTo f x := by
  rw [applyIf, List.contains_iff_mem.mpr h, if_pos rfl]

theorem foldl_applyTo (enabled : List Transform) (f : Form α) :
    (all.filter enabled.contains).foldl applyTo f = applyEach enabled f := by
  rw [List.foldl_filter]
  rfl

theorem applyAll_eq (enabled : List Transform) (fs : List (Form α)) :
    applyAll enabled fs = if enabled.contains blankLines then collapse (fs.map (applyEach enabled))
      else fs.map (applyEach enabled) := by
  rw [applyAll, funext (foldl_applyTo enabled)]

theorem exists_applyEach_of_mem (hg : g ∈ applyAll enabled fs) :
    ∃ f ∈ fs, applyEach enabled f = g := by
  have hmem : g ∈ fs.map (applyEach enabled) := by
    rw [applyAll_eq] at hg
    split at hg
    · exact (arrangement_collapse.subperm _).subset hg
    · exact hg
  exact List.mem_map.mp hmem

/-- No top-level form is lost but line breaks. -/
theorem applyEach_mem_applyAll (hf : f ∈ fs) (hcode : (applyEach enabled f).isNewline = false) :
    applyEach enabled f ∈ applyAll enabled fs := by
  have hmem : applyEach enabled f ∈ fs.map (applyEach enabled) := List.mem_map_of_mem hf
  rw [applyAll_eq]
  split
  · have hkept : applyEach enabled f ∈ withoutBreaks (fs.map (applyEach enabled)) :=
      List.mem_filter.mpr ⟨hmem, by simp [hcode]⟩
    rw [← withoutBreaks_collapse] at hkept
    exact (List.mem_filter.mp hkept).1
  · exact hmem

theorem tight_applyEach (h : .trailing ∈ enabled) (f : Form α) :
    Everywhere TightIn (applyEach enabled f) := by
  have hlater : ∀ {f : Form α} (x : Transform), Everywhere TightIn f →
      Everywhere TightIn (applyIf enabled x f) := by
    intro f x hf
    rw [applyIf]
    split
    · cases x with
      | trailing => exact everywhere_pullUp f
      | defnArglist =>
        exact everywhere_editCallOf arrangement_raiseArglist.subperm
          (fun b fs hfs htight => (hfs htight).raiseArglist) hf
      | defmethodDispatch =>
        exact everywhere_editCallOf arrangement_raiseDispatch.subperm
          (fun b fs hfs htight => (hfs htight).raiseDispatch) hf
      | blankLines => exact tight_squeeze hf
    · exact hf
  have hfirst : Everywhere TightIn (applyIf enabled .trailing f) := by
    rw [applyIf_of_mem h]
    exact everywhere_pullUp f
  exact hlater _ (hlater _ (hlater _ hfirst))

/-- Where line breaks at the end are dropped, none is left there, whatever else is enabled. -/
theorem tight_applyAll (h : .trailing ∈ enabled) (hg : g ∈ applyAll enabled fs) :
    Everywhere TightIn g := by
  obtain ⟨f, -, rfl⟩ := exists_applyEach_of_mem hg
  exact tight_applyEach h f

theorem sparse_applyEach (h : .blankLines ∈ enabled) (f : Form α) :
    Everywhere SparseIn (applyEach enabled f) := by
  rw [applyEach, applyIf_of_mem h]
  exact sparse_squeeze _

/-- Where blank lines are dropped, no two are left in a row, whatever else is enabled. -/
theorem sparse_applyAll (h : .blankLines ∈ enabled) (fs : List (Form α)) :
    Sparse 0 (applyAll enabled fs) ∧ ∀ g ∈ applyAll enabled fs, Everywhere SparseIn g := by
  refine ⟨?_, fun g hg => ?_⟩
  · rw [applyAll_eq, if_pos (List.contains_iff_mem.mpr h)]
    exact sparse_collapseAfter 0 _
  · obtain ⟨f, -, rfl⟩ := exists_applyEach_of_mem hg
    exact sparse_applyEach h f

/-! ## 6. Moves and lists without a name -/

/-- The third item is a line break, and what follows it calls for a move. -/
def Apart (moves : Form α → Form α → Prop) (fs : List (Form α)) : Prop :=
  ∃ head name br x y rest, fs = head :: name :: br :: x :: y :: rest ∧
    br.isNewline = true ∧ moves x y

/-- A vector with something behind it on its line. -/
def ArglistMoves (x y : Form α) : Prop :=
  x.shape.vector?.isSome = true ∧ y.isNewline = false

/-- A keyword with anything behind it. -/
def DispatchMoves (x _ : Form α) : Prop :=
  x.shape.keyword?.isSome = true

/-- An edit that puts the fourth item in the place of the line break before it, where the two items
behind that line break call for a move, and does nothing elsewhere. -/
structure Moves (edit : ∀ {α : Type}, List (Form α) → List (Form α))
    (moves : ∀ {α : Type}, Form α → Form α → Prop) : Prop extends Arrangement edit where
  same : ∀ {α : Type} {fs : List (Form α)}, ¬ Apart moves fs → edit fs = fs
  moved : ∀ {α : Type} (head name : Form α) {br x y : Form α} (rest : List (Form α)),
    br.isNewline = true → moves x y →
      ∃ rest', edit (head :: name :: br :: x :: y :: rest) = head :: name :: x :: rest'
  isNewline : ∀ {α : Type} {x y : Form α}, moves x y → x.isNewline = false

theorem moves_raiseArglist : Moves raiseArglist ArglistMoves where
  toArrangement := arrangement_raiseArglist
  same {α fs} h := by
    fun_cases raiseArglist fs with
    | case1 head name br args body rest hmoves =>
      simp only [Bool.and_eq_true, Bool.not_eq_true'] at hmoves
      exact absurd ⟨head, name, br, args, body, rest, rfl, hmoves.1.1, hmoves.2, hmoves.1.2⟩ h
    | case2 => rfl
    | case3 => rfl
  moved head name _ _ _ rest hbr hmoves := by
    rw [raiseArglist, if_pos (by simp [hbr, hmoves.1, hmoves.2])]
    exact ⟨_, rfl⟩
  isNewline hmoves := isNewline_of_vector hmoves.1

theorem moves_raiseDispatch : Moves raiseDispatch DispatchMoves where
  toArrangement := arrangement_raiseDispatch
  same {α fs} h := by
    fun_cases raiseDispatch fs with
    | case1 head name br value body rest hmoves =>
      simp only [Bool.and_eq_true] at hmoves
      exact absurd ⟨head, name, br, value, body, rest, rfl, hmoves⟩ h
    | case2 head name br value body rest hmoves =>
      simp only [Bool.and_eq_true] at hmoves
      exact absurd ⟨head, name, br, value, body, rest, rfl, hmoves⟩ h
    | case3 => rfl
    | case4 => rfl
  moved head name _ _ _ rest hbr hmoves := by
    rw [raiseDispatch, if_pos ((Bool.and_eq_true _ _).mpr ⟨hbr, hmoves⟩)]
    split <;> exact ⟨_, rfl⟩
  isNewline hmoves := isNewline_of_keyword hmoves

section moves

variable {edit : ∀ {α : Type}, List (Form α) → List (Form α)}
  {moves : ∀ {α : Type}, Form α → Form α → Prop} (hedit : Moves edit moves)

include hedit

/-- After a move nothing calls for another. -/
theorem Moves.not_apart (fs : List (Form α)) : ¬ Apart moves (edit fs) := by
  by_cases h : Apart moves fs
  · obtain ⟨head, name, br, x, y, rest, rfl, hbr, hmoves⟩ := h
    obtain ⟨rest', hmoved⟩ := hedit.moved head name rest hbr hmoves
    rintro ⟨_, _, br', _, _, _, heq, hbr', -⟩
    obtain rfl : x = br' := by
      rw [hmoved] at heq
      simp_all
    rw [hedit.isNewline hmoves] at hbr'
    contradiction
  · rwa [hedit.same h]

theorem Moves.eq_self_iff : edit fs = fs ↔ ¬ Apart moves fs :=
  ⟨fun h => h ▸ hedit.not_apart fs, hedit.same⟩

theorem Moves.again (fs : List (Form α)) : edit (edit fs) = edit fs :=
  hedit.same (hedit.not_apart fs)

theorem Moves.head? (fs : List (Form α)) : (edit fs).head? = fs.head? := by
  by_cases h : Apart moves fs
  · obtain ⟨head, name, br, x, y, rest, rfl, hbr, hmoves⟩ := h
    obtain ⟨rest', hmoved⟩ := hedit.moved head name rest hbr hmoves
    rw [hmoved]
    rfl
  · rw [hedit.same h]

end moves

/-! ## 7. A second run -/

/-- Whether a form is a call depends on the first item of it. -/
theorem isCallOf_seq (name : String) (note : α) (b : Bracket) {items items' : List (Form α)}
    (h : items'.head?.bind (·.shape.symbol?) = items.head?.bind (·.shape.symbol?)) :
    (Form.seq note b items').isCallOf name = (Form.seq note b items).isCallOf name := by
  cases b with
  | list =>
    unfold Form.isCallOf
    rw [Form.call?_list, Form.call?_list, h]
    cases items.head?.bind fun head => head.shape.symbol? <;> rfl
  | _ => rfl

/-- Dropping blank lines after the first `seen` keeps the item in front. -/
theorem head?_collapse (fs : List (Form α)) : (collapse fs).head? = fs.head? := by
  cases fs with
  | nil => rfl
  | cons f rest => cases hf : f.isNewline <;> simp [collapse, collapseAfter, hf]

theorem isCallOf_squeeze (name : String) (f : Form α) :
    (squeeze f).isCallOf name = f.isCallOf name := by
  cases f with
  | seq note b items =>
    rw [squeeze, squeezeAll_eq_map]
    refine isCallOf_seq name note b ?_
    rw [head?_collapse, List.head?_map]
    cases items with
    | nil => rfl
    | cons f rest => cases f <;> rfl
  | _ => rfl

theorem isCallOf_editCallOf {edit : List (Form α) → List (Form α)}
    (hedit : ∀ fs, (edit fs).head? = fs.head?) (name name' : String) (f : Form α) :
    (editCallOf name' edit f).isCallOf name = f.isCallOf name := by
  unfold editCallOf
  split
  · split
    · exact isCallOf_seq name _ _ (by rw [hedit])
    · rfl
  · rfl

/-- A form is a call of one name at most. -/
theorem eq_of_isCallOf {name name' : String} (h : f.isCallOf name = true)
    (h' : f.isCallOf name' = true) : name' = name := by
  unfold Form.isCallOf at h h'
  split at h <;> simp_all

/-- The items of a call, and the name in front of them. -/
theorem eq_seq_of_isCallOf {name : String} (h : f.isCallOf name = true) :
    ∃ note head rest, f = .seq note .list (head :: rest) ∧ head.isNewline = false := by
  obtain ⟨note, k, rest, rfl⟩ := Form.isCallOf_iff.mp h
  exact ⟨note, _, rest, rfl, rfl⟩

/-- What is left in front was in front, as long as no blank line came before. -/
theorem eq_cons_of_collapseAfter {seen : Nat} (hseen : seen < 2)
    (h : collapseAfter seen fs = f :: gs) :
    ∃ rest, fs = f :: rest ∧ collapseAfter (if f.isNewline then seen + 1 else 0) rest = gs := by
  cases fs with
  | nil => simp [collapseAfter] at h
  | cons k rest =>
    unfold collapseAfter at h
    split at h
    · next hbreak =>
      obtain ⟨rfl, hrest⟩ := List.cons.inj h
      exact ⟨rest, rfl, by rw [if_pos hbreak, hrest]⟩
    · next hcode =>
      obtain ⟨rfl, hrest⟩ := List.cons.inj h
      exact ⟨rest, rfl, by rw [if_neg hcode, hrest]⟩

/-- A definition without a name that calls for a move. -/
def NamelessCall (name : String) (moves : Form α → Form α → Prop) (f : Form α) : Prop :=
  f.isCallOf name = true ∧ ∃ head gap br x y rest, f.parts = head :: gap :: br :: x :: y :: rest ∧
    gap.isNewline = true ∧ br.isNewline = true ∧ moves x y

/-- A definition without a name that an enabled transform would move a line break in. -/
def Nameless (enabled : List Transform) (f : Form α) : Prop :=
  (.defnArglist ∈ enabled ∧ NamelessCall "defn" ArglistMoves f) ∨
    (.defmethodDispatch ∈ enabled ∧ NamelessCall "defmethod" DispatchMoves f)

section moves

variable {edit : ∀ {α : Type}, List (Form α) → List (Form α)}
  {moves : ∀ {α : Type}, Form α → Form α → Prop} (hedit : Moves edit moves) {name : String}

include hedit

/-- If dropping blank lines calls for a move, there was no name. -/
theorem Moves.apart_of_collapse {head x y : Form α} {br gap : Form α} {rest : List (Form α)}
    (heq : collapse fs = head :: gap :: br :: x :: y :: rest) (hhead : head.isNewline = false)
    (hgap : gap.isNewline = false) (hbr : br.isNewline = true) (hmoves : moves x y) :
    Apart moves fs := by
  have hx := hedit.isNewline hmoves
  obtain ⟨fs₁, rfl, h₁⟩ := eq_cons_of_collapseAfter Nat.two_pos heq
  rw [if_neg (by simp [hhead])] at h₁
  obtain ⟨fs₂, rfl, h₂⟩ := eq_cons_of_collapseAfter Nat.two_pos h₁
  rw [if_neg (by simp [hgap])] at h₂
  obtain ⟨fs₃, rfl, h₃⟩ := eq_cons_of_collapseAfter Nat.two_pos h₂
  rw [if_pos hbr] at h₃
  obtain ⟨fs₄, rfl, h₄⟩ := eq_cons_of_collapseAfter Nat.one_lt_two h₃
  rw [if_neg (by simp [hx])] at h₄
  obtain ⟨fs₅, rfl, -⟩ := eq_cons_of_collapseAfter Nat.two_pos h₄
  exact ⟨head, gap, br, x, y, fs₅, rfl, hbr, hmoves⟩

/-- A call that is moved in already is left alone after its blank lines are dropped, unless it has
no name. -/
theorem Moves.editCallOf_squeeze (hsame : editCallOf name edit f = f)
    (h : ¬ NamelessCall name moves (squeeze f)) :
    editCallOf name edit (squeeze f) = squeeze f := by
  by_cases hcall : f.isCallOf name = true
  · have hcall' : (squeeze f).isCallOf name = true := by rwa [isCallOf_squeeze]
    obtain ⟨note, head, rest, rfl, hhead⟩ := eq_seq_of_isCallOf hcall
    let items := (head :: rest).map squeeze
    have hsqueeze : squeeze (.seq note .list (head :: rest))
        = .seq note .list (collapse items) := by
      rw [squeeze, squeezeAll_eq_map]
    have hitems : edit items = items := by
      have hrest : edit (head :: rest) = head :: rest := by simpa [editCallOf, hcall] using hsame
      rw [hedit.natural squeeze head_squeeze, hrest]
    rw [hsqueeze] at hcall' h ⊢
    have hcollapsed : edit (collapse items) = collapse items := by
      refine hedit.same ?_
      rintro ⟨head', gap, br, x, y, rest', heq, hbr, hmoves⟩
      have hhead' : head'.isNewline = false := by
        have hfirst := head?_collapse items
        rw [heq] at hfirst
        obtain rfl : head' = squeeze head := by simpa [items] using hfirst
        rw [isNewline_of_head (head_squeeze head), hhead]
      cases hgap : gap.isNewline with
      | true => exact h ⟨hcall', head', gap, br, x, y, rest', heq, hgap, hbr, hmoves⟩
      | false =>
        exact hedit.eq_self_iff.mp hitems (hedit.apart_of_collapse heq hhead' hgap hbr hmoves)
    rw [editCallOf, if_pos hcall', hcollapsed]
  · unfold editCallOf
    rw [isCallOf_squeeze, if_neg hcall]

end moves

theorem editCallOf_of_not {edit : List (Form α) → List (Form α)} {name : String}
    (h : ¬ f.isCallOf name = true) : editCallOf name edit f = f := by
  unfold editCallOf
  rw [if_neg h]

/-- A call of one name is left alone by an edit of the calls of another. -/
theorem editCallOf_of_other {edit : List (Form α) → List (Form α)} {name name' : String}
    (hne : name' ≠ name) (h : f.isCallOf name = true) : editCallOf name' edit f = f :=
  editCallOf_of_not fun h' => hne (eq_of_isCallOf h h')

theorem Moves.editCallOf_again {edit : ∀ {α : Type}, List (Form α) → List (Form α)}
    {moves : ∀ {α : Type}, Form α → Form α → Prop} (hedit : Moves edit moves) (name : String)
    (f : Form α) : editCallOf name edit (editCallOf name edit f) = editCallOf name edit f := by
  by_cases hcall : f.isCallOf name = true
  · have hcall' : (editCallOf name edit f).isCallOf name = true := by
      rwa [isCallOf_editCallOf hedit.head?]
    obtain ⟨note, head, rest, rfl, -⟩ := eq_seq_of_isCallOf hcall
    have hmoved : editCallOf name edit (.seq note .list (head :: rest))
        = .seq note .list (edit (head :: rest)) := by
      rw [editCallOf, if_pos hcall]
    rw [hmoved] at hcall' ⊢
    rw [editCallOf, if_pos hcall', hedit.again]
  · rw [editCallOf_of_not hcall, editCallOf_of_not hcall]

/-- An edit of the calls of one name undoes no edit of the calls of another. -/
theorem editCallOf_comm_fixed {edit edit' : List (Form α) → List (Form α)} {name name' : String}
    (hne : name' ≠ name) (hhead : ∀ fs, (edit' fs).head? = fs.head?)
    (hsame : editCallOf name edit f = f) :
    editCallOf name edit (editCallOf name' edit' f) = editCallOf name' edit' f := by
  by_cases hcall : f.isCallOf name = true
  · rw [editCallOf_of_other hne hcall, hsame]
  · exact editCallOf_of_not (by rwa [isCallOf_editCallOf hhead])

/-- After the transforms ran, an enabled one that moves line breaks has nothing left to do, unless
a definition has no name. -/
theorem Moves.editCallOf_applyIf {edit : ∀ {α : Type}, List (Form α) → List (Form α)}
    {moves : ∀ {α : Type}, Form α → Form α → Prop} (hedit : Moves edit moves) {name : String}
    (hsame : editCallOf name edit f = f)
    (h : ¬ NamelessCall name moves (applyIf enabled .blankLines f)) :
    editCallOf name edit (applyIf enabled .blankLines f) = applyIf enabled .blankLines f := by
  unfold applyIf at h ⊢
  split
  · next hblank =>
    rw [if_pos hblank] at h
    exact hedit.editCallOf_squeeze hsame h
  · exact hsame

/-- A second run leaves a form alone, unless it is a definition without a name. -/
theorem applyEach_applyEach (h : ¬ Nameless enabled (applyEach enabled f)) :
    applyEach enabled (applyEach enabled f) = applyEach enabled f := by
  obtain ⟨hdefn, hmethod⟩ := not_or.mp h
  have hfixed : ∀ x, applyIf enabled x (applyEach enabled f) = applyEach enabled f := by
    intro x
    by_cases hx : x ∈ enabled
    · rw [applyIf_of_mem hx]
      cases x with
      | trailing => exact pullUp_of_tight (tight_applyEach hx f)
      | blankLines => exact squeeze_of_sparse (sparse_applyEach hx f)
      | defnArglist =>
        refine moves_raiseArglist.editCallOf_applyIf ?_ (not_and.mp hdefn hx)
        rw [applyIf_of_mem hx]
        have hsame := moves_raiseArglist.editCallOf_again "defn" (applyIf enabled .trailing f)
        rw [applyIf]
        split
        · exact editCallOf_comm_fixed (by decide) moves_raiseDispatch.head? hsame
        · exact hsame
      | defmethodDispatch =>
        refine moves_raiseDispatch.editCallOf_applyIf ?_ (not_and.mp hmethod hx)
        rw [applyIf_of_mem hx]
        exact moves_raiseDispatch.editCallOf_again "defmethod" _
    · rw [applyIf, if_neg (by simpa using hx)]
  rw [applyEach, hfixed, hfixed, hfixed, hfixed]

/-- A second run changes nothing in a source, unless a definition in it has no name. -/
theorem applyAll_applyAll (h : ∀ g ∈ applyAll enabled fs, ¬ Nameless enabled g) :
    applyAll enabled (applyAll enabled fs) = applyAll enabled fs := by
  have heach : ∀ g ∈ applyAll enabled fs, applyEach enabled g = g := by
    intro g hg
    obtain ⟨f, -, rfl⟩ := exists_applyEach_of_mem hg
    exact applyEach_applyEach (h _ hg)
  have hmap : (applyAll enabled fs).map (applyEach enabled) = applyAll enabled fs :=
    (List.map_congr_left heach).trans (List.map_id _)
  rw [applyAll_eq enabled (applyAll enabled fs), hmap]
  split
  · next hblank =>
    exact collapseAfter_of_sparse (sparse_applyAll (List.contains_iff_mem.mp hblank) fs).1
  · rfl

/-- In a definition without a name a move puts the item behind the second line break in its
place. -/
theorem Moves.editCallOf_nameless {edit : ∀ {α : Type}, List (Form α) → List (Form α)}
    {moves : ∀ {α : Type}, Form α → Form α → Prop} (hedit : Moves edit moves) {name : String}
    (h : NamelessCall name moves f) :
    ∃ note head gap br x rest rest', f = .seq note .list (head :: gap :: br :: x :: rest) ∧
      br.isNewline = true ∧ x.isNewline = false ∧
      editCallOf name edit f = .seq note .list (head :: gap :: x :: rest') := by
  obtain ⟨hcall, head, gap, br, x, y, rest, hparts, -, hbr, hmoves⟩ := h
  obtain ⟨note, _, _, hlist, -⟩ := eq_seq_of_isCallOf hcall
  rw [hlist] at hparts
  obtain rfl := hlist.trans (congrArg (Form.seq note .list) hparts)
  obtain ⟨rest', hmoved⟩ := hedit.moved head gap rest hbr hmoves
  refine ⟨note, head, gap, br, x, y :: rest, rest', rfl, hbr, hedit.isNewline hmoves, ?_⟩
  rw [editCallOf, if_pos hcall, hmoved]

/-- Dropping blank lines keeps the first three items where they are, and the items themselves too
if there were no blank lines in them. -/
theorem parts_applyIf_blankLines (note : α) {head gap x : Form α} (rest : List (Form α))
    (hx : x.isNewline = false)
    (hsparse : .blankLines ∈ enabled → ∀ g ∈ [head, gap, x], Everywhere SparseIn g) :
    ∃ rest', (applyIf enabled .blankLines (.seq note .list (head :: gap :: x :: rest))).parts
      = head :: gap :: x :: rest' := by
  unfold applyIf
  split
  · next hblank =>
    have hsame : ∀ g ∈ [head, gap, x], squeeze g = g := fun g hg =>
      squeeze_of_sparse (hsparse (List.contains_iff_mem.mp hblank) g hg)
    have hparts : (applyTo (.seq note .list (head :: gap :: x :: rest)) .blankLines).parts
        = collapse (head :: gap :: x :: rest.map squeeze) := by
      rw [applyTo, squeeze, squeezeAll_eq_map, List.map_cons, List.map_cons, List.map_cons,
        hsame head (by simp), hsame gap (by simp), hsame x (by simp)]
      rfl
    rw [hparts]
    cases hhead : head.isNewline <;> cases hgap : gap.isNewline <;>
      simp [collapse, collapseAfter, hhead, hgap, hx]
  · exact ⟨rest, rfl⟩

/-- A second run changes a definition without a name: it puts another item in the place of the
second line break. -/
theorem parts_applyEach_of_nameless (h : Nameless enabled (applyEach enabled f)) :
    ∃ head gap br x rest rest',
      (applyEach enabled f).parts = head :: gap :: br :: x :: rest ∧
      br.isNewline = true ∧ x.isNewline = false ∧
      (applyEach enabled (applyEach enabled f)).parts = head :: gap :: x :: rest' := by
  have hsparse := fun hx : .blankLines ∈ enabled => sparse_applyEach hx f
  have htrailing : applyIf enabled .trailing (applyEach enabled f) = applyEach enabled f := by
    unfold applyIf
    split
    · next hx => exact pullUp_of_tight (tight_applyEach (List.contains_iff_mem.mp hx) f)
    · rfl
  generalize applyEach enabled f = g at *
  -- The second run up to where it drops blank lines.
  have hmoved : ∃ note head gap br x rest rest',
      g = .seq note .list (head :: gap :: br :: x :: rest) ∧
      br.isNewline = true ∧ x.isNewline = false ∧
      applyIf enabled .defmethodDispatch (applyIf enabled .defnArglist g)
        = .seq note .list (head :: gap :: x :: rest') := by
    rcases h with ⟨hx, hcall⟩ | ⟨hx, hcall⟩
    · obtain ⟨note, head, gap, br, x, rest, rest', hg, hbr, hcode, hedited⟩ :=
        moves_raiseArglist.editCallOf_nameless hcall
      refine ⟨note, head, gap, br, x, rest, rest', hg, hbr, hcode, ?_⟩
      have hdefn : (editCallOf "defn" raiseArglist g).isCallOf "defn" = true := by
        rw [isCallOf_editCallOf moves_raiseArglist.head?, hcall.1]
      rw [applyIf_of_mem hx, applyTo, ← hedited, applyIf]
      split
      · exact editCallOf_of_other (by decide) hdefn
      · rfl
    · obtain ⟨note, head, gap, br, x, rest, rest', hg, hbr, hcode, hedited⟩ :=
        moves_raiseDispatch.editCallOf_nameless hcall
      refine ⟨note, head, gap, br, x, rest, rest', hg, hbr, hcode, ?_⟩
      have hother : applyIf enabled .defnArglist g = g := by
        unfold applyIf
        split
        · exact editCallOf_of_other (by decide) hcall.1
        · rfl
      rw [hother, applyIf_of_mem hx, applyTo, hedited]
  obtain ⟨note, head, gap, br, x, rest, rest', rfl, hbr, hcode, hedited⟩ := hmoved
  have hbelow : .blankLines ∈ enabled → ∀ k ∈ [head, gap, x], Everywhere SparseIn k := by
    intro hx k hk
    refine (everywhere_seq.mp (hsparse hx)).2 k ?_
    simp only [List.mem_cons, List.not_mem_nil, or_false] at hk ⊢
    tauto
  obtain ⟨rest'', hparts⟩ := parts_applyIf_blankLines note rest' hcode hbelow
  refine ⟨head, gap, br, x, rest, rest'', rfl, hbr, hcode, ?_⟩
  rw [applyEach, htrailing, hedited, hparts]

end CljFormat.Transform
