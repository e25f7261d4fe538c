/-
CljFormat.Proofs.Independence — sources on lines of their own are formatted independently.

A source that is followed by a line break and another source is read as both (`read_append_newline`)
and its text is the text of both (`toText_newline`). Between the two stands what is gathered over a
whole source before anything is set. Marks and pending decisions are about identities, and no form
has an identity in common with another; so a stretch of a source is planned as if it were all of the
source (`planAll_stretch`). Short names do cross from one source into the other. But a name with its
namespace is in no default table, so that by default they decide nothing (`style_default`).
-/
import CljFormat.Proofs.Failure
import CljFormat.Proofs.Layout.Margin
import CljFormat.Proofs.Layout.Scope
import CljFormat.Proofs.Layout.Twin
import CljFormat.Proofs.Reader.Join

namespace CljFormat

open Layout

/-! ## 1. Short names -/

/-- No qualified name has a default style. -/
theorem default_eq_none {name : String} (h : '/' ∈ name.toList) :
    IndentStyle.default? name = none := by
  have hdefaults : ∀ entry ∈ IndentStyle.defaults, ∀ known ∈ entry.2, '/' ∉ known.toList := by
    decide
  have hnone : ∀ entry ∈ IndentStyle.defaults, ¬ entry.2.contains name = true := by
    intro entry hentry hname
    exact hdefaults entry hentry name (List.contains_iff_mem.mp hname) h
  rw [IndentStyle.default?, List.find?_eq_none.mpr hnone]
  rfl

theorem style_join (ns name : String) : ({} : IndentTable).style? (Symbol.join ns name) = none := by
  have hslash : '/' ∈ (Symbol.join ns name).toList := by simp [Symbol.join]
  rw [IndentTable.style?, default_eq_none hslash]
  simp

/-- By default a symbol has the same style whatever the short names of the source are. -/
theorem style_default {ctx ctx' : Context} (h : ctx.table = {}) (h' : ctx'.table = {})
    (sym : String) : ctx'.style? sym = ctx.style? sym := by
  have hresolve : ∀ ctx : Context, (ctx.resolve? sym).bind ({} : IndentTable).style? = none := by
    intro ctx
    unfold Context.resolve?
    split <;> simp [style_join]
  unfold Context.style?
  rw [h, h', hresolve ctx, hresolve ctx']

/-! ## 2. Stretches of a source -/

section

variable {table : IndentTable} {I : Nat → Nat → Prop}
  {roots before fs after alone : List (Form Label)}

/-- Marks that agree still do once some are added that are about nothing in question. -/
theorem marks_of_sameAt {m m' m'' : Marks} (h : Marks.Agree I m m'')
    (hsame : ∀ i j, I i j → m.SameAt i m') : Marks.Agree I m' m'' :=
  ⟨fun i j hij => (hsame i j hij).threaded.trans (h.threaded i j hij),
    fun i j hij => (hsame i j hij).docstrings.trans (h.docstrings i j hij)⟩

/-- What stands before and behind a stretch of a source marks nothing in it. -/
theorem marks_stretch (hI : OneToOne I) (htwins : Twins I fs alone)
    (hbefore : ∀ i j, I i j → i ∉ before.flatMap Form.ids)
    (hafter : ∀ i j, I i j → i ∉ after.flatMap Form.ids) :
    Marks.Agree I (Marks.addAll table {} (before ++ fs ++ after))
      (Marks.addAll table {} alone) := by
  have hempty : Marks.Agree I {} {} := ⟨fun _ _ _ => rfl, fun _ _ _ => rfl⟩
  have hstart : Marks.Agree I (Marks.addAll table {} before) {} :=
    marks_of_sameAt hempty fun i j hij => marks_addAll _ _ (hbefore i j hij)
  rw [addAll_append, addAll_append]
  exact marks_of_sameAt (addAll_twins hI hstart htwins) fun i j hij =>
    marks_addAll _ _ (hafter i j hij)

/-- What stands before a stretch of a source leaves no decision about anything in it. -/
theorem pending_stretch {ctx : Context} (hbefore : ∀ i j, I i j → i ∉ before.flatMap Form.ids) :
    Pending.Agree I (planAll ctx {} before).2 {} := by
  have hnone : ∀ i j, I i j → ¬ (planAll ctx {} before).2.About i := by
    intro i j hij habout
    rcases about_planAll before habout with hempty | hmem
    · exact not_about_empty hempty
    · exact hbefore i j hij hmem
  constructor
  · intro i j hij
    simpa using fun hmem => hnone i j hij (.inl hmem)
  · intro i j hij
    simpa using fun hmem => hnone i j hij (.inr hmem)

/-- A stretch of a source is planned as the same forms are planned alone. -/
theorem planAll_stretch (hroots : roots = before ++ fs ++ after)
    (hids : (roots.flatMap Form.ids).Nodup) (halone : (alone.flatMap Form.ids).Nodup)
    (hbare : fs.map Form.bare = alone.map Form.bare) :
    (planAll (.ofRoots {} roots) (planAll (.ofRoots {} roots) {} before).2 fs).1
      = planned {} alone := by
  subst hroots
  rw [List.flatMap_append, List.flatMap_append, List.nodup_append, List.nodup_append] at hids
  obtain ⟨⟨-, hfs, hleft⟩, -, hright⟩ := hids
  have htwins := twins_paired hbare
  have hI := oneToOne_paired hfs halone htwins.ids.length_eq
  have hbefore : ∀ i j, Paired (fs.flatMap Form.ids) (alone.flatMap Form.ids) i j →
      i ∉ before.flatMap Form.ids := by
    intro i j hij hmem
    exact hleft i hmem i (List.of_mem_zip hij).1 rfl
  have hafter : ∀ i j, Paired (fs.flatMap Form.ids) (alone.flatMap Form.ids) i j →
      i ∉ after.flatMap Form.ids := by
    intro i j hij hmem
    exact hright i (List.mem_append_right _ (List.of_mem_zip hij).1) i hmem rfl
  exact planAll_twins hI (style_default rfl rfl) (marks_stretch hI htwins hbefore hafter)
    (pending_stretch hbefore) htwins

/-- The forms on both sides of a line break are planned as they are planned alone. -/
theorem planned_newline {n : Form Label} {as bs : List (Form Label)} (hn : n.isNewline = true)
    (hids : ((before ++ n :: after).flatMap Form.ids).Nodup)
    (has : (as.flatMap Form.ids).Nodup) (hbs : (bs.flatMap Form.ids).Nodup)
    (hbefore : before.map Form.bare = as.map Form.bare)
    (hafter : after.map Form.bare = bs.map Form.bare) :
    ∃ n' : Form Hint, n'.isNewline = true ∧
      planned {} (before ++ n :: after) = planned {} as ++ n' :: planned {} bs := by
  let ctx : Context := .ofRoots {} (before ++ n :: after)
  let pending : Pending := (planAll ctx {} before).2
  have hfirst : (planAll ctx {} before).1 = planned {} as :=
    @planAll_stretch _ [] _ _ _ rfl hids has hbefore
  have hsecond : (planAll ctx (plan ctx pending n).2 after).1 = planned {} bs := by
    have hroots : before ++ n :: after = (before ++ [n]) ++ after ++ [] := by simp
    have hplanned := planAll_stretch hroots hids hbs hafter
    rwa [planAll_append] at hplanned
  refine ⟨(plan ctx pending n).1, ?_, ?_⟩
  · rw [← Form.isNewline_bare, bare_plan, Form.isNewline_bare, hn]
  · calc planned {} (before ++ n :: after)
        = (planAll ctx {} (before ++ n :: after)).1 := rfl
      _ = (planAll ctx {} before).1 ++
            (plan ctx pending n).1 :: (planAll ctx (plan ctx pending n).2 after).1 := by
          rw [planAll_append, planAll_cons]
      _ = planned {} as ++ (plan ctx pending n).1 :: planned {} bs := by rw [hfirst, hsecond]

end

/-! ## 3. Two sources -/

theorem nodup_ids_of_read {options : Reader.Options} {source : String} {d : Reader.Document}
    (h : Reader.read options source = .ok d) : (d.roots.flatMap Form.ids).Nodup :=
  (Tree.represents_ofDocument h).nodup

/-- The text of a source that is formatted by default. -/
theorem exists_of_format {source text : String} (h : format {} source = .ok text) :
    ∃ d, Reader.read .everything source = .ok d ∧
      text = toText ' ' (sourcePieces (planned {} d.roots)) := by
  cases hread : Reader.read .everything source with
  | error cause =>
    have herror := @format_of_read_error {} source cause hread
    rw [herror] at h
    cases h
  | ok d =>
    have hok := @format_of_read_ok {} source d hread
    rw [hok, Transform.applyAll_nil] at h
    exact ⟨d, rfl, (Except.ok.inj h).symm⟩

/-- A source, a line break and another source are formatted as the text of the first, the line break
and the text of the second. -/
theorem format_append_newline {a b x y : String} (ha : format {} a = .ok x)
    (hb : format {} b = .ok y) : format {} (a ++ "\n" ++ b) = .ok (x ++ "\n" ++ y) := by
  obtain ⟨da, hda, rfl⟩ := exists_of_format ha
  obtain ⟨db, hdb, rfl⟩ := exists_of_format hb
  obtain ⟨d, hread, hroots⟩ := Reader.read_append_newline hda hdb
  obtain ⟨before, later, hsplit, hbefore, hlater⟩ := List.map_eq_append_iff.mp hroots
  obtain ⟨n, after, rfl, hn, hafter⟩ := List.map_eq_cons_iff.mp hlater
  have hbreak : n.isNewline = true := by
    rw [← Form.isNewline_bare, hn]
    rfl
  have hids := nodup_ids_of_read hread
  rw [hsplit] at hids
  obtain ⟨n', hbreak', hplanned⟩ := planned_newline hbreak hids (nodup_ids_of_read hda)
    (nodup_ids_of_read hdb) hbefore hafter
  have hformat := @format_of_read_ok {} (a ++ "\n" ++ b) d hread
  rw [hformat, Transform.applyAll_nil, hsplit]
  refine congrArg Except.ok ?_
  calc toText ' ' (layOut {} (before ++ n :: after))
      = toText ' ' (sourcePieces (planned {} da.roots ++ n' :: planned {} db.roots)) :=
        congrArg (fun plans => toText ' ' (sourcePieces plans)) hplanned
    _ = _ := toText_newline hbreak' _ _

/-- An alias, a threaded list and a comment at the end of the one source; a binding form under the
alias in the other. -/
theorem format_append_newline_namespace :
    format {} "(ns a (:require [b :as c]))\n(-> x\n(case\ny)) ;e"
        = .ok "(ns a (:require [b :as c]))\n(-> x\n    (case\n      y)) ;e" ∧
      format {} "(c/let [p 1\nq\n2]\np)"
        = .ok "(c/let [p 1\n        q\n          2]\n  p)" ∧
      format {} ("(ns a (:require [b :as c]))\n(-> x\n(case\ny)) ;e" ++ "\n" ++
          "(c/let [p 1\nq\n2]\np)")
        = .ok ("(ns a (:require [b :as c]))\n(-> x\n    (case\n      y)) ;e" ++ "\n" ++
          "(c/let [p 1\n        q\n          2]\n  p)") :=
  ⟨rfl, rfl, format_append_newline rfl rfl⟩

end CljFormat
