/-
CljFormat.Proofs.Layout.Replan — a copy of a source is planned alike.

Planning decides by names, by the marks of a source and by what earlier forms have decided about
later ones. A copy of a source has the same names and corresponding marks, so the decisions that
wait in `Pending` stay about corresponding forms, and every form of the copy gets the hint that the
form it is a copy of gets (`planAll_copy`).
-/
import CljFormat.Proofs.Layout.Copy
import CljFormat.Proofs.Layout.Plan

namespace CljFormat.Layout

open List (Forall₂)

variable {I : Nat → Nat → Prop} {closed : Bool} {f g : Form Label} {fs gs : List (Form Label)}
  {ctx ctx' : Context} {p q : Pending}

/-! ## 1. Styles -/

/-- Two sources say the same of forms that correspond. -/
structure Context.Agree (I : Nat → Nat → Prop) (ctx ctx' : Context) : Prop where
  table : ctx'.table = ctx.table
  aliases : ctx'.aliases = ctx.aliases
  marks : Marks.Agree I ctx.marks ctx'.marks

theorem Context.Agree.style (h : Context.Agree I ctx ctx') (sym : String) :
    ctx'.style? sym = ctx.style? sym := by
  unfold Context.style? Context.resolve?
  rw [h.table, h.aliases]

theorem Context.Agree.headStyle (h : Context.Agree I ctx ctx') (hcopy : CopyAll I closed fs gs) :
    ctx'.headStyle gs = ctx.headStyle fs := by
  have hhead : ∀ {f g fs gs}, Copy I f g → ctx'.headStyle (g :: gs) = ctx.headStyle (f :: fs) := by
    intro f g fs gs hf
    unfold Context.headStyle
    simp only [hf.keyword, hf.symbol, h.style]
  cases hcopy with
  | nil => rfl
  | keep hf _ _ => exact hhead hf
  | insert _ hf _ _ => exact hhead hf

/-! ## 2. Decisions about forms inside -/

/-- Two lists of decisions are about forms that correspond. -/
structure Pending.Agree (I : Nat → Nat → Prop) (p q : Pending) : Prop where
  bindings : Layout.Agree I p.bindings.contains q.bindings.contains
  bodies : Layout.Agree I p.bodies.contains q.bodies.contains

theorem Pending.Agree.empty : Pending.Agree I {} {} :=
  ⟨fun _ _ _ => rfl, fun _ _ _ => rfl⟩

theorem agree_append {is js is' js' : List Nat} (h : Agree I is.contains js.contains)
    (h' : Agree I is'.contains js'.contains) :
    Agree I (is ++ is').contains (js ++ js').contains := by
  intro i j hij
  have hi := h i j hij
  have hi' := h' i j hij
  rw [Bool.eq_iff_iff, List.contains_iff_mem, List.contains_iff_mem] at hi hi' ⊢
  rw [List.mem_append, List.mem_append, hi, hi']

theorem agree_filter_ne (hI : OneToOne I) {is js : List Nat} (h : Agree I is.contains js.contains)
    {k l : Nat} (hkl : I k l) :
    Agree I (is.filter (· != k)).contains (js.filter (· != l)).contains := by
  intro i j hij
  have hi := h i j hij
  rw [Bool.eq_iff_iff, List.contains_iff_mem, List.contains_iff_mem] at hi ⊢
  have hne : i = k ↔ j = l := by
    constructor
    · rintro rfl
      exact hI.right hij hkl
    · rintro rfl
      exact hI.left hij hkl
  simp [List.mem_filter, hi, hne]

theorem firstVector_copy (h : CopyAll I closed fs gs) :
    Option.Rel (fun v v' => I v.1 v'.1 ∧ CopyAll I true v.2 v'.2) (firstVector? fs)
      (firstVector? gs) := by
  have hfirst : Option.Rel (Copy I) ((fs.drop 1).find? Form.isSemantic)
      ((gs.drop 1).find? Form.isSemantic) := by
    rw [← List.head?_filter, ← List.head?_filter]
    have hcode := h.code_drop
    generalize (fs.drop 1).filter Form.isSemantic = code at hcode
    generalize (gs.drop 1).filter Form.isSemantic = code' at hcode
    cases hcode with
    | nil => exact .none
    | cons hf _ => exact .some hf
  exact rel_bind hfirst fun _ _ hf => rel_bind hf.vector fun _ _ hitems => .some ⟨hf.note, hitems⟩

theorem letModifiers_copy (h : CopyAll I closed fs gs) :
    Forall₂ I (letModifiers fs) (letModifiers gs) := by
  have hpairs := forall₂_zip h.code (List.forall₂_drop 1 h.code)
  refine forall₂_filter_map ?_ ?_ hpairs
  · rintro ⟨key, value⟩ ⟨key', value'⟩ ⟨hkey, hvalue⟩
    have hkey : Copy I key key' := hkey
    have hvector := Copy.vector hvalue
    have hsome : value.shape.vector?.isSome = value'.shape.vector?.isSome := by
      generalize value.shape.vector? = v at hvector
      generalize value'.shape.vector? = v' at hvector
      cases hvector <;> rfl
    simp only [hkey.keyword, hsome]
  · rintro ⟨key, value⟩ ⟨key', value'⟩ ⟨-, hvalue⟩
    exact Copy.note hvalue

/-- Lists are code. -/
theorem listsAmong_code (fs : List (Form Label)) :
    listsAmong (fs.filter Form.isSemantic) = listsAmong fs := by
  unfold listsAmong
  rw [List.filter_filter]
  congr 1
  refine List.filter_congr fun f _ => ?_
  cases f with
  | atom l x => rfl
  | prefixed l s body => rfl
  | seq l b items =>
    simp [Form.isSemantic, Form.shape, Shape.isSemantic, Shape.isNewline, Shape.isComment]

theorem listsAmong_copy
    (h : Forall₂ (Copy I) (fs.filter Form.isSemantic) (gs.filter Form.isSemantic)) :
    Forall₂ I (listsAmong fs) (listsAmong gs) := by
  rw [← listsAmong_code fs, ← listsAmong_code gs]
  refine forall₂_filter_map ?_ (fun _ _ hf => Copy.note hf) h
  intro f g hf
  have hlist := hf.list
  generalize f.shape.list? = l at hlist
  generalize g.shape.list? = l' at hlist
  cases hlist <;> rfl

theorem ofCall_copy (hI : OneToOne I) (style : IndentStyle) (h : CopyAll I closed fs gs) :
    Pending.Agree I (Pending.ofCall style fs) (Pending.ofCall style gs) := by
  have hvector := firstVector_copy h
  cases style with
  | letStyle =>
    refine ⟨hI.agree ?_, fun _ _ _ => rfl⟩
    dsimp only [Pending.ofCall]
    generalize firstVector? fs = v at hvector
    generalize firstVector? gs = v' at hvector
    cases hvector with
    | none => exact .nil
    | some hv => exact .cons hv.1 .nil
  | forStyle =>
    unfold Pending.ofCall
    dsimp only
    generalize firstVector? fs = v at hvector
    generalize firstVector? gs = v' at hvector
    cases hvector with
    | none => exact .empty
    | some hv => exact ⟨hI.agree (.cons hv.1 (letModifiers_copy hv.2)), fun _ _ _ => rfl⟩
  | letfn =>
    refine ⟨fun _ _ _ => rfl, hI.agree ?_⟩
    dsimp only [Pending.ofCall]
    generalize firstVector? fs = v at hvector
    generalize firstVector? gs = v' at hvector
    cases hvector with
    | none => exact .nil
    | some hv => exact listsAmong_copy hv.2.code
  | deftype => exact ⟨fun _ _ _ => rfl, hI.agree (listsAmong_copy h.code_drop)⟩
  | _ => exact .empty

/-! ## 3. Plans -/

theorem ofList_copy (hI : OneToOne I) (hctx : Context.Agree I ctx ctx') (hp : Pending.Agree I p q)
    {id id' : Nat} (hid : I id id') (h : CopyAll I closed fs gs) :
    (ofList ctx' q id' gs).1 = (ofList ctx p id fs).1 ∧
      Pending.Agree I (ofList ctx p id fs).2 (ofList ctx' q id' gs).2 := by
  have hcall := ofCall_copy hI (ctx.headStyle fs) h
  have hwaiting : Pending.Agree I ((Pending.ofCall (ctx.headStyle fs) fs).merge p)
      ((Pending.ofCall (ctx.headStyle fs) gs).merge q) :=
    ⟨agree_append hcall.bindings hp.bindings, agree_append hcall.bodies hp.bodies⟩
  have hhead : (gs.head?.bind fun head => head.shape.symbol?)
      = fs.head?.bind fun head => head.shape.symbol? :=
    bind_eq_of_rel h.head fun _ _ hf => hf.symbol
  unfold ofList
  rw [hctx.headStyle h]
  dsimp only
  refine ⟨?_, hwaiting.bindings, agree_filter_ne hI hwaiting.bodies hid⟩
  rw [hhead, ← hwaiting.bodies id id' hid, ← hctx.marks.threaded id id' hid]

theorem ofSeq_copy (hI : OneToOne I) (hctx : Context.Agree I ctx ctx') (hp : Pending.Agree I p q)
    {id id' : Nat} (hid : I id id') (b : Bracket) (h : CopyAll I closed fs gs) :
    (ofSeq ctx' q id' b gs).1 = (ofSeq ctx p id b fs).1 ∧
      Pending.Agree I (ofSeq ctx p id b fs).2 (ofSeq ctx' q id' b gs).2 := by
  cases b with
  | list => exact ofList_copy hI hctx hp hid h
  | fnLiteral => exact ⟨congrArg ofStyle (hctx.headStyle h), hp⟩
  | vector =>
    refine ⟨?_, agree_filter_ne hI hp.bindings hid, hp.bodies⟩
    simp only [ofSeq, hp.bindings id id' hid]
  | _ => exact ⟨rfl, hp⟩

mutual

/-- A copy of a form is planned alike, and leaves corresponding decisions behind. -/
theorem plan_copy (hI : OneToOne I) (hctx : Context.Agree I ctx ctx') {p q : Pending}
    (hp : Pending.Agree I p q) {f g : Form Label} (h : Copy I f g) :
    Form.Echoes Eq (fun _ => Atom.Alike) (plan ctx p f).1 (plan ctx' q g).1 ∧
      Pending.Agree I (plan ctx p f).2 (plan ctx' q g).2 :=
  match h with
  | .atom hnote hatom => ⟨.atom (by rw [hctx.marks.docstrings _ _ hnote]) hatom, hp⟩
  | .prefixed s _ hbody => by
    obtain ⟨hecho, hpending⟩ := plan_copy hI hctx hp hbody
    rw [plan_prefixed, plan_prefixed]
    exact ⟨.prefixed s rfl hecho, hpending⟩
  | .seq b hnote hitems => by
    obtain ⟨hlayout, hinner⟩ := ofSeq_copy hI hctx hp hnote b hitems
    obtain ⟨hechoes, hpending⟩ := planAll_copy hI hctx hinner hitems
    rw [plan_seq, plan_seq]
    exact ⟨.seq b (by rw [hlayout]) hechoes, hpending⟩

theorem planAll_copy (hI : OneToOne I) (hctx : Context.Agree I ctx ctx') {p q : Pending}
    (hp : Pending.Agree I p q) {closed : Bool} {fs gs : List (Form Label)}
    (h : CopyAll I closed fs gs) :
    Form.EchoesAll Eq (fun _ => Atom.Alike) closed (planAll ctx p fs).1 (planAll ctx' q gs).1 ∧
      Pending.Agree I (planAll ctx p fs).2 (planAll ctx' q gs).2 :=
  match h with
  | .nil => ⟨.nil, hp⟩
  | .keep hf hbreak hrest => by
    obtain ⟨hecho, hpending⟩ := plan_copy hI hctx hp hf
    obtain ⟨hechoes, hlast⟩ := planAll_copy hI hctx hpending hrest
    rw [planAll_cons, planAll_cons]
    exact ⟨.keep hecho (by rwa [needsBreak_planAll]) hechoes, hlast⟩
  | .insert l hf hbreak hrest => by
    obtain ⟨hecho, hpending⟩ := plan_copy hI hctx hp hf
    obtain ⟨hechoes, hlast⟩ := planAll_copy hI hctx hpending hrest
    rw [planAll_cons, planAll_cons, planAll_cons]
    exact ⟨.insert _ hecho (by rwa [needsBreak_planAll]) hechoes, hlast⟩

end

/-- A copy of a source is planned alike. -/
theorem planned_copy {table : IndentTable} (hI : OneToOne I) (h : CopyAll I closed fs gs) :
    Form.EchoesAll Eq (fun _ => Atom.Alike) closed (planAll (.ofRoots table fs) {} fs).1
      (planAll (.ofRoots table gs) {} gs).1 := by
  have hctx : Context.Agree I (.ofRoots table fs) (.ofRoots table gs) :=
    ⟨rfl, aliases_copy h, marks_copy hI h⟩
  exact (planAll_copy hI hctx .empty h).1

end CljFormat.Layout
