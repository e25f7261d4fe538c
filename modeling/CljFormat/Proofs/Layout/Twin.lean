/-
CljFormat.Proofs.Layout.Twin — the same forms elsewhere are planned the same.

Forms that are read at another place of a source are the same but for their labels: their bare forms
are equal, and their identities correspond in order (`Twins`). The forms with the line breaks that
comments need (`Form.withBreaks`) are a copy of either, and a copy is planned alike. Of equal bare
forms only one can be planned alike to a given plan (`Form.eq_of_echoes`), so twins are planned the
same (`planAll_twins`), and they mark the same forms (`addAll_twins`).

What a plan depends on are the marks of the source and the styles that it gives to symbols
(`planAll_congr`): a source with other short names, but the same styles, makes the same plan.
-/
import CljFormat.Proofs.Layout.Replan
import CljFormat.Proofs.Tree.Holds

namespace CljFormat

open List (Forall₂)

/-- Line breaks are missing in the same places of the same forms. -/
theorem needsBreak_of_bare {α β : Type} {closed : Bool} {f : Form α} {g : Form β}
    {fs : List (Form α)} {gs : List (Form β)} (hf : f.bare = g.bare)
    (hfs : fs.map Form.bare = gs.map Form.bare) :
    needsBreak closed f.isComment fs = needsBreak closed g.isComment gs := by
  rw [← needsBreak_bare, ← Form.isComment_bare, hf, hfs, needsBreak_bare, Form.isComment_bare]

namespace Form

/-! ## 1. Forms with the line breaks that comments need -/

section

variable {α : Type}

mutual

/-- A form with a line break behind every comment that does not end its line. -/
def withBreaks : Form α → Form α
  | .atom l x => .atom l x
  | .prefixed l s body => .prefixed l s body.withBreaks
  | .seq l b items => .seq l b (withBreaksAll true items)

/-- Neighbouring forms, in a closed sequence or not, with the line breaks that they need. -/
def withBreaksAll (closed : Bool) : List (Form α) → List (Form α)
  | [] => []
  | f :: rest =>
    if needsBreak closed f.isComment rest then
      f.withBreaks :: .atom f.note .newline :: withBreaksAll closed rest
    else f.withBreaks :: withBreaksAll closed rest

end

end

/-! ## 2. What comes back as the same is the same -/

section

variable {β : Type} {A A' : β → Atom → Atom → Prop}

mutual

/-- Of equal bare forms, only one comes back with given annotations. -/
theorem eq_of_echoes {f g h : Form β} (hf : Echoes Eq A f h) (hg : Echoes Eq A' g h)
    (hbare : f.bare = g.bare) : f = g :=
  match hf, hg with
  | .atom rfl _, .atom rfl _ => by simpa using hbare
  | .prefixed s rfl hbody, .prefixed _ rfl hbody' => by
    rw [eq_of_echoes hbody hbody' (by simpa using hbare)]
  | .seq b rfl hitems, .seq _ rfl hitems' => by
    rw [eq_of_echoesAll hitems hitems' (by simpa using hbare)]

theorem eq_of_echoesAll {closed : Bool} {fs gs hs : List (Form β)}
    (hfs : EchoesAll Eq A closed fs hs) (hgs : EchoesAll Eq A' closed gs hs)
    (hbare : fs.map bare = gs.map bare) : fs = gs :=
  match hfs with
  | .nil => (List.map_eq_nil_iff.mp hbare.symm).symm
  | .keep hf hbreak hrest => by
    obtain ⟨g, gs, rfl, hg, hrest'⟩ := List.map_eq_cons_iff.mp hbare.symm
    rw [needsBreak_of_bare hg.symm hrest'.symm] at hbreak
    cases hgs with
    | keep hecho _ hlater =>
      rw [eq_of_echoes hf hecho hg.symm, eq_of_echoesAll hrest hlater hrest'.symm]
    | insert _ _ hneeds _ => simp [hbreak] at hneeds
  | .insert l hf hbreak hrest => by
    obtain ⟨g, gs, rfl, hg, hrest'⟩ := List.map_eq_cons_iff.mp hbare.symm
    rw [needsBreak_of_bare hg.symm hrest'.symm] at hbreak
    cases hgs with
    | keep _ hneeds _ => simp [hbreak] at hneeds
    | insert _ hecho _ hlater =>
      rw [eq_of_echoes hf hecho hg.symm, eq_of_echoesAll hrest hlater hrest'.symm]

end

end

/-! ## 3. Identities in order -/

theorem length_ids (f : Form Label) : f.ids.length = f.bare.nodes.length := by
  rw [ids, nodes_bare, List.length_map, List.length_map]

theorem length_flatMap_ids (fs : List (Form Label)) :
    (fs.flatMap ids).length = ((fs.map bare).flatMap nodes).length := by
  simp only [List.length_flatMap, List.map_map, Function.comp_def, length_ids]

end Form

namespace Layout

variable {I : Nat → Nat → Prop} {closed : Bool} {fs gs : List (Form Label)}

/-- The same forms, with identities that correspond in order. -/
structure Twins (I : Nat → Nat → Prop) (fs gs : List (Form Label)) : Prop where
  bare : fs.map Form.bare = gs.map Form.bare
  ids : Forall₂ I (fs.flatMap Form.ids) (gs.flatMap Form.ids)

theorem Twins.refl (fs : List (Form Label)) : Twins Eq fs fs :=
  ⟨rfl, List.forall₂_refl _⟩

/-- Two of the same place in two lists of identities. -/
def Paired (is js : List Nat) (i j : Nat) : Prop := (i, j) ∈ is.zip js

/-- Lists without repetitions pair their members one to one. -/
theorem oneToOne_paired {is js : List Nat} (his : is.Nodup) (hjs : js.Nodup)
    (hlength : is.length = js.length) : OneToOne (Paired is js) := by
  have hfst : ((is.zip js).map Prod.fst).Nodup := by
    rwa [List.map_fst_zip (by omega)]
  have hsnd : ((is.zip js).map Prod.snd).Nodup := by
    rwa [List.map_snd_zip (by omega)]
  constructor
  · intro i i' j hi hi'
    exact congrArg Prod.fst (List.inj_on_of_nodup_map hsnd hi hi' rfl)
  · intro i j j' hj hj'
    exact congrArg Prod.snd (List.inj_on_of_nodup_map hfst hj hj' rfl)

/-- The same forms, read anywhere, are twins. -/
theorem twins_paired (h : fs.map Form.bare = gs.map Form.bare) :
    Twins (Paired (fs.flatMap Form.ids) (gs.flatMap Form.ids)) fs gs := by
  refine ⟨h, List.forall₂_iff_zip.mpr ⟨?_, fun hmem => hmem⟩⟩
  rw [Form.length_flatMap_ids, Form.length_flatMap_ids, h]

/-! ## 4. Twins are copied to the same forms -/

mutual

/-- The form with its line breaks is a copy of every twin of it. -/
theorem copy_withBreaks {f g : Form Label} (hbare : f.bare = g.bare)
    (hids : Forall₂ I f.ids g.ids) : Copy I f g.withBreaks :=
  match f with
  | .atom l x => by
    cases g with
    | atom l' y =>
      obtain rfl : x = y := by simpa using hbare
      exact .atom (by simpa using hids) (.inl rfl)
    | _ => simp at hbare
  | .prefixed l s body => by
    cases g with
    | prefixed l' s' body' =>
      obtain ⟨rfl, hbody⟩ : s = s' ∧ body.bare = body'.bare := by simpa using hbare
      obtain ⟨hid, hids⟩ := List.forall₂_cons.mp hids
      exact .prefixed s hid (copy_withBreaks hbody hids)
    | _ => simp at hbare
  | .seq l b items => by
    cases g with
    | seq l' b' items' =>
      obtain ⟨rfl, hitems⟩ : b = b' ∧ items.map Form.bare = items'.map Form.bare := by
        simpa using hbare
      rw [Form.ids_seq, Form.ids_seq] at hids
      obtain ⟨hid, hids⟩ := List.forall₂_cons.mp hids
      exact .seq b hid (copyAll_withBreaks true ⟨hitems, hids⟩)
    | _ => simp at hbare

theorem copyAll_withBreaks (closed : Bool) {fs gs : List (Form Label)} (h : Twins I fs gs) :
    CopyAll I closed fs (Form.withBreaksAll closed gs) :=
  match fs with
  | [] => by
    obtain rfl := List.map_eq_nil_iff.mp h.bare.symm
    exact .nil
  | f :: fs => by
    obtain ⟨hbare, hids⟩ := h
    obtain ⟨g, gs, rfl, hg, hgs⟩ := List.map_eq_cons_iff.mp hbare.symm
    have hlength : f.ids.length = g.ids.length := by
      rw [Form.length_ids, Form.length_ids, hg]
    rw [List.flatMap_cons, List.flatMap_cons] at hids
    obtain ⟨hf, hfs⟩ := forall₂_append hlength hids
    have hcopy := copy_withBreaks hg.symm hf
    have hlater := copyAll_withBreaks closed ⟨hgs.symm, hfs⟩
    have hsame := @needsBreak_of_bare _ _ closed _ _ _ _ hg.symm hgs.symm
    rw [Form.withBreaksAll]
    cases hbreak : needsBreak closed g.isComment gs with
    | true => exact .insert _ hcopy (hsame.trans hbreak) hlater
    | false => exact .keep hcopy (hsame.trans hbreak) hlater

end

/-! ## 5. What a plan depends on -/

variable {ctx ctx' : Context} {p q : Pending} {table : IndentTable} {m m' : Marks}

theorem headStyle_congr {α : Type} (hstyle : ∀ sym, ctx'.style? sym = ctx.style? sym)
    (items : List (Form α)) : ctx'.headStyle items = ctx.headStyle items := by
  unfold Context.headStyle
  simp only [hstyle]

theorem ofSeq_congr (hstyle : ∀ sym, ctx'.style? sym = ctx.style? sym)
    (hthreaded : ctx'.marks.threaded = ctx.marks.threaded) (p : Pending) (id : Nat) (b : Bracket)
    (items : List (Form Label)) : ofSeq ctx' p id b items = ofSeq ctx p id b items := by
  unfold ofSeq ofList
  rw [headStyle_congr hstyle, hthreaded]

mutual

theorem plan_congr (hstyle : ∀ sym, ctx'.style? sym = ctx.style? sym)
    (hmarks : ctx'.marks = ctx.marks) (p : Pending) :
    ∀ f : Form Label, plan ctx' p f = plan ctx p f
  | .atom l x => by rw [plan, plan, hmarks]
  | .prefixed l s body => by
    rw [plan_prefixed, plan_prefixed, plan_congr hstyle hmarks p body]
  | .seq l b items => by
    rw [plan_seq, plan_seq, ofSeq_congr hstyle (congrArg Marks.threaded hmarks)]
    dsimp only
    rw [planAll_congr hstyle hmarks _ items]

/-- A plan depends on the styles that symbols have, and not on why they have them. -/
theorem planAll_congr (hstyle : ∀ sym, ctx'.style? sym = ctx.style? sym)
    (hmarks : ctx'.marks = ctx.marks) (p : Pending) :
    ∀ fs : List (Form Label), planAll ctx' p fs = planAll ctx p fs
  | [] => rfl
  | f :: fs => by
    rw [planAll_cons, planAll_cons, plan_congr hstyle hmarks p f, planAll_congr hstyle hmarks _ fs]

end

/-! ## 6. Twins are planned the same -/

theorem oneToOne_eq : OneToOne Eq :=
  ⟨fun h h' => h.trans h'.symm, fun h h' => h.symm.trans h'⟩

theorem agree_eq (s : Nat → Bool) : Agree Eq s s := by
  rintro i _ rfl
  rfl

/-- Twins mark the same forms. -/
theorem addAll_twins (hI : OneToOne I) (hm : Marks.Agree I m m') (h : Twins I fs gs) :
    Marks.Agree I (m.addAll table fs) (m'.addAll table gs) := by
  have hfs : Marks.Agree I (m.addAll table fs) (m'.addAll table (Form.withBreaksAll false gs)) :=
    addAll_copy hI hm (copyAll_withBreaks false h)
  have hgs : Marks.Agree Eq (m'.addAll table gs) (m'.addAll table (Form.withBreaksAll false gs)) :=
    addAll_copy oneToOne_eq ⟨agree_eq _, agree_eq _⟩ (copyAll_withBreaks false (.refl gs))
  exact ⟨fun i j hij => (hfs.threaded i j hij).trans (hgs.threaded j j rfl).symm,
    fun i j hij => (hfs.docstrings i j hij).trans (hgs.docstrings j j rfl).symm⟩

/-- The same forms, read anywhere, are twins that mark the same. -/
theorem marks_paired (hfs : (fs.flatMap Form.ids).Nodup) (hgs : (gs.flatMap Form.ids).Nodup)
    (h : fs.map Form.bare = gs.map Form.bare) (table : IndentTable) :
    let I := Paired (fs.flatMap Form.ids) (gs.flatMap Form.ids)
    OneToOne I ∧ Twins I fs gs ∧
      Marks.Agree I (Marks.addAll table {} fs) (Marks.addAll table {} gs) := by
  have htwins := twins_paired h
  have hI := oneToOne_paired hfs hgs htwins.ids.length_eq
  exact ⟨hI, htwins, addAll_twins hI ⟨fun _ _ _ => rfl, fun _ _ _ => rfl⟩ htwins⟩

/-- Twins are planned the same, if the styles, their marks and what is pending are the same. -/
theorem planAll_twins (hI : OneToOne I) (hstyle : ∀ sym, ctx'.style? sym = ctx.style? sym)
    (hmarks : Marks.Agree I ctx.marks ctx'.marks) (hp : Pending.Agree I p q)
    (h : Twins I fs gs) : (planAll ctx p fs).1 = (planAll ctx' q gs).1 := by
  -- What is said at `gs`, under the marks of `fs`: the rest is equal on both sides.
  let between : Context := { ctx' with marks := ctx.marks }
  have hbetween : planAll between p fs = planAll ctx p fs :=
    @planAll_congr ctx between hstyle rfl p fs
  have hagree : Context.Agree I between ctx' := ⟨rfl, rfl, hmarks⟩
  have hsame : Context.Agree Eq ctx' ctx' := ⟨rfl, rfl, agree_eq _, agree_eq _⟩
  have hpending : Pending.Agree Eq q q := ⟨agree_eq _, agree_eq _⟩
  have hfs := (planAll_copy hI hagree hp (copyAll_withBreaks false h)).1
  have hgs := (planAll_copy oneToOne_eq hsame hpending (copyAll_withBreaks false (.refl gs))).1
  rw [← hbetween]
  refine Form.eq_of_echoesAll hfs hgs ?_
  rw [bare_planAll, bare_planAll, h.bare]

end Layout

end CljFormat
