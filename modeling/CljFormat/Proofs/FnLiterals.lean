/-
CljFormat.Proofs.FnLiterals — a function literal is laid out like the list it abbreviates.

`#(f a)` abbreviates the list `(f a)` with another head, and is laid out by the style that `f` gives
to a list. What else a head decides in a list it does not decide in a function literal: the pairs of
a binding vector, the bodies of methods, what a `:>>` passes, the lists that are threaded into, and
the short names that `ns` gives. So a function literal is the text of the list that is laid out by
its head's style alone (`headOnly`), with a `#` in front and its later lines one column deeper
(`format_fnLiteral`).

That is the text of the list as a source of its own if the rest of what the head decides does not
show (`ShowsHeadOnly`): a binding vector on one line or with lines broken between pairs only, a
threaded list of an ordinary style, a `condp` without a `:>>`. A head that decides nothing else
shows nothing else (`showsHeadOnly_of_plainHead`).
-/
import CljFormat.Proofs.Independence
import CljFormat.Proofs.Layout.Deeper
import CljFormat.Proofs.Layout.Shown
import CljFormat.Proofs.Reader.FnLiteral

namespace CljFormat

namespace Layout

variable {c : Char} {table : IndentTable} {ctx : Context} {l : Label} {items : List (Form Label)}

/-! ## 1. Lists by their heads alone -/

/-- What the items of a list say of themselves, whatever list they stand in. -/
def Context.ofItems (table : IndentTable) (items : List (Form Label)) : Context where
  table := table
  aliases := {}
  marks := Marks.addAll table {} items

/-- The list of some items, laid out by the style of its head. Its head decides nothing else. -/
def headOnly (table : IndentTable) (items : List (Form Label)) : Form Hint :=
  let ctx := Context.ofItems table items
  .seq { layout := ofStyle (ctx.headStyle items) } .list (planAll ctx {} items).1

/-- The symbol at the head of a list. -/
def headSymbol? (items : List (Form Label)) : Option String :=
  items.head?.bind fun head => head.shape.symbol?

/-- What the head of a list decides besides the layout of the list does not show. -/
def ShowsHeadOnly (table : IndentTable) (l : Label) (items : List (Form Label)) : Prop :=
  shown (plan (.ofRoots table [.seq l .list items]) {} (.seq l .list items)).1
    = shown (headOnly table items)

/-- The head of a list decides nothing that shows besides the layout of the list: it has no style
that lays out forms inside the list, does not thread, and is neither `ns` nor a `condp`. -/
structure PlainHead (table : IndentTable) (items : List (Form Label)) : Prop where
  style : (Context.ofItems table items).headStyle items ∉
    [.letStyle, .forStyle, .letfn, .deftype]
  symbol : ∀ sym ∈ headSymbol? items,
    table.threadFirst? sym = none ∧ sym ≠ "ns" ∧ Symbol.baseName sym ≠ "condp"

/-! ## 2. Plans -/

/-- In a plan, a sequence whose lines start behind its first item does not begin with a line
break. -/
theorem led_planAll (p : Pending) (fs : List (Form Label)) :
    ∀ f ∈ (planAll ctx p fs).1.flatMap Form.nodes, Led f := by
  intro f hf
  match f, hf with
  | .atom _ _, _ => trivial
  | .prefixed _ _ _, _ => trivial
  | .seq _ _ [], _ => trivial
  | .seq hint b (g :: rest), hf =>
    obtain ⟨q, l, labelled, -, hbare, hlayout⟩ := seq_of_mem_planAll p fs hf
    intro hlist
    cases hg : g.isNewline with
    | false => rfl
    | true =>
      obtain ⟨head, later, rfl, hhead, -⟩ := List.map_eq_cons_iff.mp hbare.symm
      have hbreak : head.isNewline = true := by
        rw [← Form.isNewline_bare, hhead, Form.isNewline_bare, hg]
      rw [hlist] at hlayout
      rcases ofSeq_of_newline ctx hbreak q l.id b later with hbody | hdeepens
      · rw [← hlayout] at hbody
        exact absurd hbody (by decide)
      · rw [← hlayout] at hdeepens
        exact absurd hdeepens (by decide)

/-- A function literal is planned by its head's style, and its items by what they say themselves. -/
theorem planned_fnLiteral (table : IndentTable) (l : Label) (items : List (Form Label)) :
    planned table [.seq l .fnLiteral items]
      = [.seq { layout := ofStyle ((Context.ofItems table items).headStyle items) } .fnLiteral
          (planAll (.ofItems table items) {} items).1] := rfl

/-- The same function literal, read elsewhere, is planned the same. -/
theorem planned_fnLiteral_twin {l' : Label} {items' : List (Form Label)}
    (hbare : items'.map Form.bare = items.map Form.bare)
    (hids : (Form.ids (.seq l .fnLiteral items)).Nodup)
    (hids' : (Form.ids (.seq l' .fnLiteral items')).Nodup) :
    planned table [.seq l' .fnLiteral items'] = planned table [.seq l .fnLiteral items] := by
  have hsame : [Form.seq l' .fnLiteral items'].map Form.bare
      = [Form.seq l .fnLiteral items].map Form.bare := by simp [hbare]
  obtain ⟨hI, htwins, hmarks⟩ :=
    marks_paired (by simpa using hids') (by simpa using hids) hsame table
  exact planAll_twins hI (fun _ => rfl) hmarks .empty htwins

/-! ## 3. Plain heads -/

theorem ofCall_of_plainHead (h : PlainHead table items) :
    Pending.ofCall ((Context.ofItems table items).headStyle items) items = {} := by
  have hstyle := h.style
  unfold Pending.ofCall
  split
  next hlet => simp [hlet] at hstyle
  next hfor => simp [hfor] at hstyle
  next hletfn => simp [hletfn] at hstyle
  next hdeftype => simp [hdeftype] at hstyle
  next => rfl

theorem call_list (l : Label) (items : List (Form Label)) :
    (Form.seq l .list items).call? = (headSymbol? items).map fun sym => (sym, items) :=
  Form.call?_list l items

/-- A list with a plain head gives no short names. -/
theorem aliases_of_plainHead (h : PlainHead table items) :
    Aliases.ofRoots [.seq l .list items] = {} := by
  rw [Aliases.ofRoots, List.foldl_cons, List.foldl_nil, Aliases.addRoot, call_list]
  cases hsym : headSymbol? items with
  | none => rfl
  | some sym =>
    have hns := (h.symbol sym hsym).2.1
    split
    next hcall =>
      obtain ⟨rfl, -⟩ : sym = "ns" ∧ _ := by simpa using hcall
      exact absurd rfl hns
    next => rfl

theorem threaded_addCall {m m' : Marks} (h : m'.threaded = m.threaded) (f : Form Label) :
    (m'.addCall table f).threaded = (m.addCall table f).threaded := by
  unfold Marks.addCall
  cases f.call? with
  | none => exact h
  | some call => simp only [h]

mutual

/-- Which lists are threaded into does not depend on the docstrings. -/
theorem threaded_add {m m' : Marks} (h : m'.threaded = m.threaded) :
    ∀ f : Form Label, (m'.add table f).threaded = (m.add table f).threaded
  | .atom _ _ => h
  | .prefixed _ _ body => threaded_add h body
  | .seq l b items => threaded_addAll (threaded_addCall h (.seq l b items)) items

theorem threaded_addAll {m m' : Marks} (h : m'.threaded = m.threaded) :
    ∀ fs : List (Form Label), (m'.addAll table fs).threaded = (m.addAll table fs).threaded
  | [] => h
  | f :: fs => threaded_addAll (threaded_add h f) fs

end

/-- A list with a plain head threads into nothing. -/
theorem threaded_of_plainHead (h : PlainHead table items) :
    (Marks.addAll table {} [.seq l .list items]).threaded
      = (Marks.addAll table {} items).threaded := by
  refine threaded_addAll ?_ items
  rw [Marks.addCall, call_list]
  cases hsym : headSymbol? items with
  | none => rfl
  | some sym => simp [(h.symbol sym hsym).1]

section

variable {ctx' : Context}

mutual

/-- If no string is on several lines, a plan shows the same whatever the docstrings are. -/
theorem shown_plan (hstyle : ∀ sym, ctx'.style? sym = ctx.style? sym)
    (hthreaded : ctx'.marks.threaded = ctx.marks.threaded) (p : Pending) : ∀ f : Form Label,
    (∀ l x, .atom l x ∈ f.nodes → '\n' ∉ x.text.toList) →
      shown (plan ctx' p f).1 = shown (plan ctx p f).1 ∧ (plan ctx' p f).2 = (plan ctx p f).2
  | .atom l x, hlines => by
    have hline := hlines l x (Form.self_mem_nodes _)
    rw [plan, plan, shown, shown]
    simp [hline]
  | .prefixed l s body, hlines => by
    obtain ⟨hbody, hpending⟩ := shown_plan hstyle hthreaded p body
      fun l x hx => hlines l x (Form.mem_nodes_of_body hx)
    rw [plan_prefixed, plan_prefixed, shown, shown, hbody]
    exact ⟨rfl, hpending⟩
  | .seq l b items, hlines => by
    obtain ⟨hitems, hpending⟩ := shown_planAll hstyle hthreaded (ofSeq ctx p l.id b items).2 items
      fun l x hx => hlines l x (by rw [Form.nodes_seq]; exact List.mem_cons_of_mem _ hx)
    have hsame := ofSeq_congr hstyle hthreaded p l.id b items
    rw [plan_seq, plan_seq, hsame]
    exact ⟨shown_seq _ b ((bare_planAll _ items).trans (bare_planAll _ items).symm) hitems,
      hpending⟩

theorem shown_planAll (hstyle : ∀ sym, ctx'.style? sym = ctx.style? sym)
    (hthreaded : ctx'.marks.threaded = ctx.marks.threaded) (p : Pending) :
    ∀ fs : List (Form Label), (∀ l x, .atom l x ∈ fs.flatMap Form.nodes → '\n' ∉ x.text.toList) →
      shownAll (planAll ctx' p fs).1 = shownAll (planAll ctx p fs).1 ∧
        (planAll ctx' p fs).2 = (planAll ctx p fs).2
  | [], _ => ⟨rfl, rfl⟩
  | f :: fs, hlines => by
    simp only [List.flatMap_cons, List.mem_append] at hlines
    obtain ⟨hfirst, hbehind⟩ := shown_plan hstyle hthreaded p f fun l x hx => hlines l x (.inl hx)
    obtain ⟨hrest, hpending⟩ := shown_planAll hstyle hthreaded (plan ctx p f).2 fs
      fun l x hx => hlines l x (.inr hx)
    rw [planAll_cons, planAll_cons, hbehind, shownAll, shownAll, hfirst, hrest]
    exact ⟨rfl, hpending⟩

end

end

/-- A list is not threaded into by itself. -/
theorem not_threaded_root (hid : l.id ∉ items.flatMap Form.ids) :
    (Marks.addAll table {} [.seq l .list items]).threaded.contains l.id = false := by
  have hcall : Marks.SameAt l.id {} (({} : Marks).addCall table (.seq l .list items)) :=
    marks_addCall {} hid
  exact (hcall.trans (marks_addAll _ items hid)).threaded

/-- A list with a plain head, and no string on several lines, shows nothing else that its head
decides. -/
theorem showsHeadOnly_of_plainHead (hid : l.id ∉ items.flatMap Form.ids)
    (hlines : ∀ l x, .atom l x ∈ items.flatMap Form.nodes → '\n' ∉ x.text.toList)
    (h : PlainHead table items) : ShowsHeadOnly table l items := by
  let ctx : Context := .ofRoots table [.seq l .list items]
  have hstyle : ∀ sym, ctx.style? sym = (Context.ofItems table items).style? sym := by
    intro sym
    unfold Context.style? Context.resolve?
    rw [show ctx.aliases = {} from aliases_of_plainHead h]
    rfl
  have hhead := headStyle_congr hstyle items
  have hcondp : (headSymbol? items).any (fun sym => Symbol.baseName sym == "condp") = false := by
    cases hsym : headSymbol? items with
    | none => rfl
    | some sym => simpa using (h.symbol sym hsym).2.2
  have hseq : ofSeq ctx {} l.id .list items
      = (ofStyle ((Context.ofItems table items).headStyle items), {}) := by
    have hroot : ctx.marks.threaded.contains l.id = false := not_threaded_root hid
    unfold ofSeq ofList
    simp only [hhead, ofCall_of_plainHead h, hroot]
    rw [show (items.head?.bind fun head => head.shape.symbol?) = headSymbol? items from rfl,
      hcondp]
    rfl
  obtain ⟨hitems, -⟩ := shown_planAll hstyle (threaded_of_plainHead h) {} items hlines
  rw [ShowsHeadOnly, plan_seq, headOnly, hseq]
  exact shown_seq _ .list ((bare_planAll _ items).trans (bare_planAll _ items).symm) hitems

example (l l' : Label) : PlainHead {} [.atom l (.symbol "when"), .atom l' (.symbol "x")] where
  style := by
    show IndentStyle.listBody ∉ _
    decide
  symbol := by
    rintro sym ⟨⟩
    decide

/-! ## 4. Lists that are read -/

/-- Atoms without a line break of their own are set without one. -/
theorem newline_not_mem_atoms {inside : Bool} (hreadable : ∀ f ∈ items, f.Readable inside)
    (hlines : ∀ f ∈ items, ∀ text ∈ f.freeTexts, '\n' ∉ text.toList) {l : Label} {x : Atom}
    (h : .atom l x ∈ items.flatMap Form.nodes) : '\n' ∉ x.text.toList := by
  obtain ⟨f, hf, hx⟩ := List.mem_flatMap.mp h
  obtain ⟨_, hatom⟩ := readable_of_mem_nodes (hreadable f hf) hx
  exact Atom.newline_not_mem_text hatom fun text htext =>
    hlines f hf text (List.mem_flatMap.mpr ⟨.atom l x, hx, htext⟩)

/-- The items of a plan are readable, and their free texts are those of the source. -/
theorem readable_planItems {inside : Bool} (hreadable : ∀ f ∈ items, f.Readable inside)
    (hlines : ∀ f ∈ items, ∀ text ∈ f.freeTexts, '\n' ∉ text.toList) (p : Pending) :
    ∀ f ∈ (planAll ctx p items).1,
      f.Readable inside ∧ ∀ text ∈ f.freeTexts, '\n' ∉ text.toList := by
  intro f hf
  have hbare : f.bare ∈ items.map Form.bare := @bare_planAll ctx p items ▸ List.mem_map_of_mem hf
  obtain ⟨g, hg, hsame⟩ := List.mem_map.mp hbare
  refine ⟨?_, ?_⟩
  · rw [← Form.readable_bare, ← hsame, Form.readable_bare]
    exact hreadable g hg
  · rw [Form.freeTexts, ← Form.Extract.ofForm_bare, ← hsame, Form.Extract.ofForm_bare]
    exact hlines g hg

/-- A function literal in a plan of its own is the text of the list by its head alone, with a `#` in
front and deeper lines. -/
theorem toText_planned_fnLiteral (hc : c ≠ '\n') {inside : Bool}
    (hreadable : ∀ f ∈ items, f.Readable inside)
    (hlines : ∀ f ∈ items, ∀ text ∈ f.freeTexts, '\n' ∉ text.toList) :
    toText c (sourcePieces (planned table [.seq l .fnLiteral items]))
      = "#" ++ indentLater c (toText c (sourcePieces [headOnly table items])) := by
  have hitems := @readable_planItems (.ofItems table items) items inside hreadable hlines {}
  have hled : ∀ f ∈ (planned table [.seq l .fnLiteral items]).flatMap Form.nodes, Led f :=
    led_planAll {} [.seq l .fnLiteral items]
  rw [planned_fnLiteral] at hled ⊢
  rw [List.flatMap_singleton] at hled
  exact toText_fnLiteral hc (fun f hf => (hitems f hf).1) (fun f hf => (hitems f hf).2) hled

end Layout

open Layout

variable {c : Char} {table : IndentTable} {body : String} {d : Reader.Document} {l : Label}
  {items : List (Form Label)}

/-! ## 5. Sources -/

/-- Two forms that are set alike are the same source. -/
theorem toText_singleton {f g : Form Hint} (h : SetAlike c f g) (hf : f.isNewline = false)
    (hg : g.isNewline = false) : toText c (sourcePieces [f]) = toText c (sourcePieces [g]) := by
  rw [sourcePieces_singleton hf, sourcePieces_singleton hg]
  exact congrArg String.ofList (h.chars 0)

theorem format_of_read_table {source : String} (hread : Reader.read .everything source = .ok d) :
    format { table } source = .ok (toText ' ' (sourcePieces (planned table d.roots))) := by
  have hformat := @format_of_read_ok { table } source d hread
  rw [hformat, Transform.applyAll_nil]
  rfl

/-- A function literal is laid out like the list it abbreviates, as far as the list is laid out by
its head's style: it is the text of that list with a `#` in front, every later line that is not
empty one column deeper. That is the text of the list as a source of its own where the rest of what
the head decides does not show, as it never does with a plain head. -/
theorem format_fnLiteral (hread : Reader.read .everything ("(" ++ body ++ ")") = .ok d)
    (hroots : d.roots = [.seq l .list items])
    (hfn : ∀ f ∈ Form.nodesAll items, ¬ f.IsFnLiteral)
    (hlines : ∀ f ∈ items, ∀ text ∈ f.freeTexts, '\n' ∉ text.toList) :
    let text := toText ' ' (sourcePieces [headOnly table items])
    format { table } ("#(" ++ body ++ ")") = .ok ("#" ++ indentLater ' ' text) ∧
      (ShowsHeadOnly table l items → format { table } ("(" ++ body ++ ")") = .ok text) ∧
      (PlainHead table items → ShowsHeadOnly table l items) := by
  intro text
  have hreadable : ∀ f ∈ items, f.Readable false := by
    have hlist := Reader.readable_of_read hread (.seq l .list items) (by rw [hroots]; simp)
    exact (Form.readable_seq.mp hlist).2
  have hids : (Form.ids (.seq l .list items)).Nodup := by
    have hnodup := nodup_ids_of_read hread
    rwa [hroots, List.flatMap_singleton] at hnodup
  refine ⟨?_, fun hshows => ?_, fun hplain => ?_⟩
  · obtain ⟨d', l', items', hread', hroots', hbare⟩ := Reader.read_hash_list hread hroots hfn
    have hids' : (Form.ids (.seq l' .fnLiteral items')).Nodup := by
      have hnodup := nodup_ids_of_read hread'
      rwa [hroots', List.flatMap_singleton] at hnodup
    have hsame : (Form.ids (.seq l .fnLiteral items)).Nodup := by
      rw [Form.ids_seq] at hids ⊢
      exact hids
    rw [format_of_read_table hread', hroots', planned_fnLiteral_twin hbare hsame hids',
      toText_planned_fnLiteral (by decide) hreadable hlines]
  · have hroot : planned table [.seq l .list items]
        = [(plan (.ofRoots table [.seq l .list items]) {} (.seq l .list items)).1] := rfl
    rw [format_of_read_table hread, hroots, hroot]
    exact congrArg Except.ok (toText_singleton (setAlike_of_shown hshows) rfl rfl)
  · have hid : l.id ∉ items.flatMap Form.ids := by
      rw [Form.ids_seq] at hids
      exact (List.nodup_cons.mp hids).1
    exact showsHeadOnly_of_plainHead hid (fun l x => newline_not_mem_atoms hreadable hlines) hplain

/-- A `let` with pairs on lines of their own, and a call on two lines behind them. -/
theorem format_fnLiteral_let :
    ∃ d l items, Reader.read .everything ("(" ++ "let [a 1\nb 2]\n(f a\nb)" ++ ")") = .ok d ∧
      d.roots = [.seq l .list items] ∧ (∀ f ∈ Form.nodesAll items, ¬ f.IsFnLiteral) ∧
      (∀ f ∈ items, ∀ text ∈ f.freeTexts, '\n' ∉ text.toList) ∧ ShowsHeadOnly {} l items ∧
      let text := toText ' ' (sourcePieces [headOnly {} items])
      format {} ("#(" ++ "let [a 1\nb 2]\n(f a\nb)" ++ ")")
          = .ok ("#" ++ indentLater ' ' text) ∧
        format {} ("(" ++ "let [a 1\nb 2]\n(f a\nb)" ++ ")") = .ok text ∧
        text = "(let [a 1\n      b 2]\n  (f a\n     b))" := by
  -- What both plans show: the vector is as good as one without pairs.
  let vector : List (Form Hint) :=
    [.atom {} (.symbol "a"), .atom {} (.number "1"), .atom {} .newline, .atom {} (.symbol "b"),
      .atom {} (.number "2")]
  let call : List (Form Hint) :=
    [.atom {} (.symbol "f"), .atom {} (.symbol "a"), .atom {} .newline, .atom {} (.symbol "b")]
  let both : Form Hint := .seq { layout := .listBody } .list
    [.atom {} (.symbol "let"), .seq {} .vector vector, .atom {} .newline,
      .seq { layout := .list } .list call]
  have hread : ∃ d l items,
      Reader.read .everything ("(" ++ "let [a 1\nb 2]\n(f a\nb)" ++ ")") = .ok d ∧
      d.roots = [.seq l .list items] ∧ (∀ f ∈ Form.nodesAll items, ¬ f.IsFnLiteral) ∧
      (∀ f ∈ items, ∀ text ∈ f.freeTexts, '\n' ∉ text.toList) ∧
      shown (plan (.ofRoots {} [.seq l .list items]) {} (.seq l .list items)).1 = both ∧
      shown (headOnly {} items) = both :=
    ⟨_, _, _, rfl, rfl, by decide, by decide, rfl, rfl⟩
  obtain ⟨d, l, items, hread, hroots, hfn, hlines, hplan, halone⟩ := hread
  have hshows : ShowsHeadOnly {} l items := hplan.trans halone.symm
  obtain ⟨hliteral, hlist, -⟩ := @format_fnLiteral {} _ d l items hread hroots hfn hlines
  have htext : format {} ("(" ++ "let [a 1\nb 2]\n(f a\nb)" ++ ")")
      = .ok "(let [a 1\n      b 2]\n  (f a\n     b))" := rfl
  exact ⟨d, l, items, hread, hroots, hfn, hlines, hshows, hliteral, hlist hshows,
    Except.ok.inj ((hlist hshows).symm.trans htext)⟩

/-- A source of one list, and the function literal that abbreviates it, are set to the same text but
for the `#` and one more column. -/
def Abbreviates (table : IndentTable) (body : String) : Prop :=
  ∃ text, format { table } ("(" ++ body ++ ")") = .ok text ∧
    format { table } ("#(" ++ body ++ ")") = .ok ("#" ++ indentLater ' ' text)

theorem not_abbreviates {text literal : String}
    (htext : format { table } ("(" ++ body ++ ")") = .ok text)
    (hliteral : format { table } ("#(" ++ body ++ ")") = .ok literal)
    (hne : literal ≠ "#" ++ indentLater ' ' text) : ¬ Abbreviates table body := by
  rintro ⟨text', htext', hliteral'⟩
  obtain rfl : text = text' := Except.ok.inj (htext.symm.trans htext')
  exact hne (Except.ok.inj (hliteral.symm.trans hliteral'))

/-- What a head decides besides the layout of its list makes a difference: for the binding vector of
a `let`, the methods of a type, the lists that are threaded into, what a `:>>` passes, and a style
by a short name. -/
theorem not_abbreviates_decided :
    (∃ d l items, Reader.read .everything "(let [a\n1] a)" = .ok d ∧
      d.roots = [.seq l .list items] ∧ (∀ f ∈ Form.nodesAll items, ¬ f.IsFnLiteral) ∧
      ∀ f ∈ items, ∀ text ∈ f.freeTexts, '\n' ∉ text.toList) ∧
    format {} "(let [a\n1] a)" = .ok "(let [a\n        1] a)" ∧
    format {} "#(let [a\n1] a)" = .ok "#(let [a\n       1] a)" ∧
    ¬ Abbreviates {} "let [a\n1] a" ∧
    ¬ Abbreviates {} "deftype A (foo [c]\nd)" ∧
    ¬ Abbreviates {} "-> x (case y\nz)" ∧
    ¬ Abbreviates {} "condp = x\n1\n:>>\nf" ∧
    ¬ Abbreviates { styles := (∅ : StyleMap).insert "x/foo" .cond0 }
      "ns a (:require [x :refer [foo]])\n(foo b\nd)" :=
  ⟨⟨_, _, _, rfl, rfl, by decide, by decide⟩, rfl, rfl, not_abbreviates rfl rfl (by decide),
    not_abbreviates rfl rfl (by decide), not_abbreviates rfl rfl (by decide),
    not_abbreviates rfl rfl (by decide), not_abbreviates rfl rfl (by decide)⟩

end CljFormat
