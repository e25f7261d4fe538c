/-
CljFormat.Proofs.Transform — rearranging line breaks leaves the code alone.

Each transform drops line breaks from a sequence or moves one, so the items of the sequence without
its line breaks are the same as before (`withoutBreaks`). Line breaks are no keys or values and do
not count as code, and so a source that is readable stays readable (`readable_applyAll`). And
whatever is listed of a source, line breaks apart, is listed after as before (`ofForm_applyAll`).
-/
import Mathlib.Data.List.Basic
import CljFormat.Proofs.Form.Spellings
import CljFormat.Transform

namespace CljFormat.Transform

variable {α : Type} {inside : Bool}

/-! ## 1. Items without their line breaks -/

/-- The items of a sequence that are no line breaks. -/
def withoutBreaks (fs : List (Form α)) : List (Form α) :=
  fs.filter fun f => !f.isNewline

theorem withoutBreaks_cons_of_newline {f : Form α} (h : f.isNewline = true)
    (fs : List (Form α)) : withoutBreaks (f :: fs) = withoutBreaks fs := by
  simp [withoutBreaks, h]

theorem withoutBreaks_dropLeadingBreaks (fs : List (Form α)) :
    withoutBreaks (dropLeadingBreaks fs) = withoutBreaks fs := by
  fun_induction dropLeadingBreaks fs with
  | case1 => rfl
  | case2 f h => rw [withoutBreaks_cons_of_newline h]
  | case3 f h => rfl
  | case4 f g rest h ih =>
    rw [Bool.and_eq_true] at h
    rw [ih, withoutBreaks_cons_of_newline h.1]
  | case5 f g rest h => rfl

theorem withoutBreaks_dropTrailingBreaks (fs : List (Form α)) :
    withoutBreaks (dropTrailingBreaks fs) = withoutBreaks fs := by
  have hreverse : ∀ gs : List (Form α), withoutBreaks gs.reverse = (withoutBreaks gs).reverse :=
    fun gs => List.filter_reverse ..
  rw [dropTrailingBreaks, hreverse, withoutBreaks_dropLeadingBreaks, hreverse, List.reverse_reverse]

theorem withoutBreaks_collapse (fs : List (Form α)) :
    withoutBreaks (collapse fs) = withoutBreaks fs := by
  have hafter : ∀ seen, withoutBreaks (collapseAfter seen fs) = withoutBreaks fs := by
    intro seen
    fun_induction collapseAfter seen fs with
    | case1 => rfl
    | case2 seen f rest h _ ih =>
      rw [withoutBreaks_cons_of_newline h, ih, withoutBreaks_cons_of_newline h]
    | case3 seen f rest h _ ih => rw [ih, withoutBreaks_cons_of_newline h]
    | case4 seen f rest h ih => simpa [withoutBreaks, h] using ih
  exact hafter 0

theorem withoutBreaks_raiseArglist (fs : List (Form α)) :
    withoutBreaks (raiseArglist fs) = withoutBreaks fs := by
  fun_cases raiseArglist fs with
  | case1 head name br args body rest h =>
    simp only [Bool.and_eq_true] at h
    simp [withoutBreaks, h.1.1, List.filter_cons]
  | case2 => rfl
  | case3 => rfl

theorem withoutBreaks_raiseDispatch (fs : List (Form α)) :
    withoutBreaks (raiseDispatch fs) = withoutBreaks fs := by
  fun_cases raiseDispatch fs with
  | case1 head name br value body rest h hbody =>
    simp only [Bool.and_eq_true] at h
    simp [withoutBreaks, h.1, List.filter_cons]
  | case2 head name br value body rest h hbody =>
    simp only [Bool.and_eq_true] at h
    simp [withoutBreaks, h.1, List.filter_cons]
  | case3 => rfl
  | case4 => rfl

/-! ## 2. What depends on the items without their line breaks -/

theorem countP_isPaired_eq {fs gs : List (Form α)} (h : withoutBreaks gs = withoutBreaks fs) :
    gs.countP Form.isPaired = fs.countP Form.isPaired := by
  have hcount : ∀ hs : List (Form α),
      hs.countP Form.isPaired = (withoutBreaks hs).countP Form.isPaired := by
    intro hs
    rw [withoutBreaks, List.countP_filter]
    refine List.countP_congr fun f _ => ?_
    simp only [Bool.and_eq_true, Bool.not_eq_true']
    refine ⟨fun hf => ⟨hf, ?_⟩, And.left⟩
    simp only [Form.isPaired, Shape.isPaired, Bool.and_eq_true] at hf
    exact (Form.isSemantic_iff.mp hf.1).1
  rw [hcount gs, h, ← hcount fs]

/-- Items with other line breaks are readable if the items were. -/
theorem readable_of_withoutBreaks {fs gs : List (Form α)}
    (h : withoutBreaks gs = withoutBreaks fs) (hfs : ∀ f ∈ fs, f.Readable inside) :
    ∀ g ∈ gs, g.Readable inside := by
  intro g hg
  cases hn : g.isNewline with
  | true =>
    obtain ⟨note, rfl⟩ := Form.eq_newline hn
    trivial
  | false =>
    have hmem : g ∈ withoutBreaks fs := h ▸ List.mem_filter.mpr ⟨hg, by simp [hn]⟩
    exact hfs g (List.mem_filter.mp hmem).1

theorem encloses_of_countP {b : Bracket} {fs gs : List (Form α)}
    (h : gs.countP Form.isPaired = fs.countP Form.isPaired) (hfs : b.Encloses inside fs) :
    b.Encloses inside gs := by
  cases b with
  | map ns => exact ⟨h ▸ hfs.1, hfs.2⟩
  | _ => exact hfs

/-- A sequence with other line breaks is readable if the sequence was. -/
theorem readable_seq_of_withoutBreaks {note : α} {b : Bracket} {fs gs : List (Form α)}
    (h : withoutBreaks gs = withoutBreaks fs) (hfs : (Form.seq note b fs).Readable inside) :
    (Form.seq note b gs).Readable inside := by
  obtain ⟨hb, hitems⟩ := Form.readable_seq.mp hfs
  exact Form.readable_seq.mpr
    ⟨encloses_of_countP (countP_isPaired_eq h) hb, readable_of_withoutBreaks h hitems⟩

/-! ## 3. The transforms -/

/-- A function that changes the line breaks of every sequence in a form, and nothing else. -/
structure Rearranges (T : Form α → Form α) : Prop where
  atom : ∀ note x, T (.atom note x) = .atom note x
  prefixed : ∀ note s body, T (.prefixed note s body) = .prefixed note s (T body)
  seq : ∀ note b items, ∃ items', T (.seq note b items) = .seq note b items' ∧
    withoutBreaks items' = withoutBreaks (items.map T)

theorem pullUpAll_eq_map (fs : List (Form α)) : pullUpAll fs = fs.map pullUp := by
  induction fs with
  | nil => rfl
  | cons f fs ih => simp [pullUpAll, ih]

theorem squeezeAll_eq_map (fs : List (Form α)) : squeezeAll fs = fs.map squeeze := by
  induction fs with
  | nil => rfl
  | cons f fs ih => simp [squeezeAll, ih]

theorem rearranges_pullUp : Rearranges (pullUp (α := α)) where
  atom _ _ := rfl
  prefixed _ _ _ := rfl
  seq note b items := by
    refine ⟨_, rfl, ?_⟩
    rw [← pullUpAll_eq_map]
    split
    · exact withoutBreaks_dropTrailingBreaks _
    · rfl

theorem rearranges_squeeze : Rearranges (squeeze (α := α)) where
  atom _ _ := rfl
  prefixed _ _ _ := rfl
  seq note b items := ⟨_, rfl, by rw [← squeezeAll_eq_map, withoutBreaks_collapse]⟩

variable {T : Form α → Form α}

theorem Rearranges.kind (hT : Rearranges T) (f : Form α) :
    (T f).isSemantic = f.isSemantic ∧ (T f).isPaired = f.isPaired := by
  cases f with
  | atom note x => rw [hT.atom]; exact ⟨rfl, rfl⟩
  | prefixed note s body => rw [hT.prefixed]; cases s <;> exact ⟨rfl, rfl⟩
  | seq note b items =>
    obtain ⟨items', hseq, -⟩ := hT.seq note b items
    rw [hseq]
    exact ⟨rfl, rfl⟩

/-- Rearranging line breaks keeps a form readable. -/
theorem Rearranges.readable (hT : Rearranges T) {f : Form α} (h : f.Readable inside) :
    (T f).Readable inside := by
  induction f using Form.induct generalizing inside with
  | atom note x => rwa [hT.atom]
  | prefixed note s body ih =>
    obtain ⟨hsem, hbody⟩ := Form.readable_prefixed.mp h
    rw [hT.prefixed, Form.readable_prefixed, (hT.kind body).1]
    exact ⟨hsem, ih hbody⟩
  | seq note b items ih =>
    obtain ⟨hb, hitems⟩ := Form.readable_seq.mp h
    obtain ⟨items', hseq, hbreaks⟩ := hT.seq note b items
    have hcount : (items.map T).countP Form.isPaired = items.countP Form.isPaired := by
      rw [List.countP_map]
      exact List.countP_congr fun f _ => by simp [(hT.kind f).2]
    rw [hseq]
    refine readable_seq_of_withoutBreaks hbreaks (Form.readable_seq.mpr ⟨?_, ?_⟩)
    · exact encloses_of_countP hcount hb
    · intro g hg
      obtain ⟨f, hf, rfl⟩ := List.mem_map.mp hg
      exact ih f hf (hitems f hf)

theorem readable_editCallOf {name : String} {edit : List (Form α) → List (Form α)}
    (hedit : ∀ fs, withoutBreaks (edit fs) = withoutBreaks fs) {f : Form α}
    (h : f.Readable inside) : (editCallOf name edit f).Readable inside := by
  unfold editCallOf
  split
  · split
    · next note b items _ => exact readable_seq_of_withoutBreaks (hedit items) h
    · exact h
  · exact h

/-- No transforms change nothing. -/
theorem applyAll_nil (roots : List (Form α)) : applyAll [] roots = roots := by
  have hnone : all.filter (List.contains []) = [] := by decide
  rw [applyAll, hnone]
  simp

/-- Each transform keeps a form readable. -/
theorem readable_applyTo {f : Form α} (h : f.Readable inside) (transform : Transform) :
    (applyTo f transform).Readable inside := by
  cases transform with
  | trailing => exact rearranges_pullUp.readable h
  | defnArglist => exact readable_editCallOf withoutBreaks_raiseArglist h
  | defmethodDispatch => exact readable_editCallOf withoutBreaks_raiseDispatch h
  | blankLines => exact rearranges_squeeze.readable h

/-- All of them together keep a source readable. -/
theorem readable_applyAll (enabled : List Transform) {roots : List (Form α)}
    (h : ∀ f ∈ roots, f.Readable inside) : ∀ g ∈ applyAll enabled roots, g.Readable inside := by
  have hfold : ∀ (transforms : List Transform) (f : Form α), f.Readable inside →
      (transforms.foldl applyTo f).Readable inside := by
    intro transforms
    induction transforms with
    | nil => exact fun f hf => hf
    | cons transform rest ih => exact fun f hf => ih _ (readable_applyTo hf transform)
  have hedited : ∀ g ∈ roots.map fun f => (all.filter enabled.contains).foldl applyTo f,
      g.Readable inside := by
    intro g hg
    obtain ⟨f, hf, rfl⟩ := List.mem_map.mp hg
    exact hfold _ f (h f hf)
  rw [applyAll]
  split
  · exact readable_of_withoutBreaks (withoutBreaks_collapse _) hedited
  · exact hedited

/-! ## 4. What is listed of a source -/

variable {γ : Type} {e : Form.Extract γ}

/-- What is listed of items is listed of the items that are no line breaks, if nothing is listed of
a line break. -/
theorem ofForm_withoutBreaks (he : e.ofAtom .newline = []) (fs : List (Form α)) :
    (withoutBreaks fs).flatMap e.ofForm = fs.flatMap e.ofForm := by
  induction fs with
  | nil => rfl
  | cons f fs ih =>
    cases h : f.isNewline with
    | true =>
      obtain ⟨note, rfl⟩ := Form.eq_newline h
      rw [withoutBreaks_cons_of_newline h, ih, List.flatMap_cons, e.ofForm_atom, he,
        List.nil_append]
    | false =>
      have hkept : withoutBreaks (f :: fs) = f :: withoutBreaks fs := by
        simp [withoutBreaks, h]
      rw [hkept, List.flatMap_cons, List.flatMap_cons, ih]

theorem ofForm_of_withoutBreaks (he : e.ofAtom .newline = []) {fs gs : List (Form α)}
    (h : withoutBreaks gs = withoutBreaks fs) : gs.flatMap e.ofForm = fs.flatMap e.ofForm := by
  rw [← ofForm_withoutBreaks he, h, ofForm_withoutBreaks he]

/-- Rearranging line breaks keeps what is listed of a form. -/
theorem Rearranges.ofForm (hT : Rearranges T) (he : e.ofAtom .newline = []) (f : Form α) :
    e.ofForm (T f) = e.ofForm f := by
  induction f using Form.induct with
  | atom note x => rw [hT.atom]
  | prefixed note s body ih => rw [hT.prefixed, e.ofForm_prefixed, ih, e.ofForm_prefixed]
  | seq note b items ih =>
    obtain ⟨items', hseq, hbreaks⟩ := hT.seq note b items
    rw [hseq, e.ofForm_seq, ofForm_of_withoutBreaks he hbreaks, List.flatMap_map, e.ofForm_seq]
    exact List.flatMap_congr ih

theorem ofForm_editCallOf (he : e.ofAtom .newline = []) {name : String}
    {edit : List (Form α) → List (Form α)}
    (hedit : ∀ fs, withoutBreaks (edit fs) = withoutBreaks fs) (f : Form α) :
    e.ofForm (editCallOf name edit f) = e.ofForm f := by
  unfold editCallOf
  split
  · split
    · next note b items _ =>
      rw [e.ofForm_seq, e.ofForm_seq, ofForm_of_withoutBreaks he (hedit items)]
    · rfl
  · rfl

theorem ofForm_applyTo (he : e.ofAtom .newline = []) (f : Form α) (transform : Transform) :
    e.ofForm (applyTo f transform) = e.ofForm f := by
  cases transform with
  | trailing => exact rearranges_pullUp.ofForm he f
  | defnArglist => exact ofForm_editCallOf he withoutBreaks_raiseArglist f
  | defmethodDispatch => exact ofForm_editCallOf he withoutBreaks_raiseDispatch f
  | blankLines => exact rearranges_squeeze.ofForm he f

/-- No transform changes what is listed of a source, line breaks apart. -/
theorem ofForm_applyAll (he : e.ofAtom .newline = []) (enabled : List Transform)
    (roots : List (Form α)) :
    (applyAll enabled roots).flatMap e.ofForm = roots.flatMap e.ofForm := by
  have hfold : ∀ (transforms : List Transform) (f : Form α),
      e.ofForm (transforms.foldl applyTo f) = e.ofForm f := by
    intro transforms
    induction transforms with
    | nil => exact fun f => rfl
    | cons transform rest ih => exact fun f => (ih _).trans (ofForm_applyTo he f transform)
  have hedited : (roots.map fun f => (all.filter enabled.contains).foldl applyTo f).flatMap
      e.ofForm = roots.flatMap e.ofForm := by
    rw [List.flatMap_map]
    exact List.flatMap_congr fun f _ => hfold _ f
  rw [applyAll]
  split
  · rw [ofForm_of_withoutBreaks he (withoutBreaks_collapse _), hedited]
  · exact hedited

end CljFormat.Transform
