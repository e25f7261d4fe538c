/-
CljFormat.Proofs.Pairing — a form that belongs to a neighbour, among pairs.

A tag, a discarded form and metadata belong to the form behind them. In a binding vector, or behind
the head of a `cond`, it matters which of them it is: metadata does not count as an item of a pair,
but a tag and a discarded form do. So one of these two shifts the pairs behind it. A later item that
starts a line hangs two columns deeper if it did not before, and does not if it did
(`format_attached`).

Two things end a shift. As long as there are no more items than stand single behind a head, there
are no pairs yet. And in a `condp` the second of a pair comes next behind a `:>>` in any case: it is
passed over behind the first of a pair, and makes the first of a pair otherwise
(`foldl_pairStep_not`).
-/
import CljFormat.Proofs.Failure
import CljFormat.Proofs.Independence
import CljFormat.Proofs.Layout.Inside
import CljFormat.Proofs.Layout.Shown
import CljFormat.Proofs.Layout.Threading

namespace CljFormat

open Form (Replaces ReplacesAmong)

/-! ## 1. Counting -/

/-- Whether a form counts as an item of a pair: code, but no metadata. -/
def Form.counts {α : Type} (f : Form α) : Bool :=
  f.isSemantic &&
    match f.shape with
    | .prefixed .metadata _ => false
    | _ => true

/-- Whether a form is the keyword `:>>`. -/
def Form.isArrow {α : Type} (f : Form α) : Bool :=
  f.shape.keyword? == some ":>>"

theorem Form.counts_bare (f : Form Layout.Hint) : f.bare.counts = Layout.pairsUp f := by
  cases f with
  | atom hint x => cases x <;> rfl
  | prefixed hint s body => cases s <;> rfl
  | seq hint b items => rfl

theorem Form.isArrow_bare {α : Type} (f : Form α) : f.bare.isArrow = f.isArrow := by
  rw [isArrow, keyword_bare, isArrow]

theorem Form.isNewline_of_isAttached {α : Type} {f : Form α} (h : f.shape.isAttached = true) :
    f.isNewline = false := by
  cases f with
  | atom note x => cases x <;> first | rfl | simp [shape, Shape.isAttached] at h
  | _ => rfl

theorem Form.isArrow_of_isAttached {α : Type} {f : Form α} (h : f.shape.isAttached = true) :
    f.isArrow = false := by
  cases f with
  | atom note x => cases x <;> first | rfl | simp [shape, Shape.isAttached] at h
  | _ => rfl

namespace Layout

variable {α : Type} {layout : Layout} {arrows : Bool} {w : Nat} {items items' : List (Form Hint)}
  {x : Form Unit} {xs ys mid : List (Form Unit)}

/-- Whether the second of a pair comes behind the item `f` that counts, if it does or does not come
before it. -/
def pairStep (arrows second : Bool) (f : Form α) : Bool :=
  !second || (arrows && f.isArrow)

/-- Whether one more item that counts, between `xs` and `mid`, shifts the pairs so that the item
behind is the first of a pair instead of the second, or the other way round. -/
def shiftsPairs (xs mid : List (Form α)) : Layout → Bool
  | .bindings => true
  | .cond leading arrows =>
    decide (leading < (xs ++ mid).countP Form.counts) &&
      !(arrows && ((mid.filter Form.counts).drop (leading + 1 - xs.countP Form.counts)).any
        Form.isArrow)
  | _ => false

/-- A line ends behind some items. -/
def AtLineEnd (items : List (Form α)) : Prop :=
  ∃ last ∈ items.getLast?, last.isNewline = true ∨ last.isComment = true

/-- How much deeper an item is set if it is the second of a pair. -/
def hang (second : Bool) : Nat :=
  if second then 2 else 0

/-! ## 2. The second of a pair -/

theorem countPair_mod (n : Nat) (f : Form Hint) :
    (countPair arrows n f % 2 == 1) = pairStep arrows (n % 2 == 1) f := by
  unfold countPair pairStep Form.isArrow
  rcases Nat.mod_two_eq_zero_or_one n with hn | hn
  · simp [hn, Nat.add_mod]
  · by_cases hpasses : arrows = true ∧ f.shape.keyword? = some ":>>"
    · simp [hn, hpasses.1, hpasses.2]
    · have hnone : (arrows && f.shape.keyword? == some ":>>") = false := by simpa using hpasses
      rw [if_neg fun h => hpasses ⟨h.1, h.2.2⟩, hnone, hn, Nat.add_mod, hn]
      rfl

theorem foldl_countPair (n : Nat) (fs : List (Form Hint)) :
    (fs.foldl (countPair arrows) n % 2 == 1)
      = (fs.map Form.bare).foldl (pairStep arrows) (n % 2 == 1) := by
  induction fs generalizing n with
  | nil => rfl
  | cons f fs ih =>
    rw [List.foldl_cons, ih, countPair_mod, List.map_cons, List.foldl_cons, pairStep, pairStep,
      Form.isArrow_bare]

/-- A shift goes on until a `:>>` that may be passed over. -/
theorem foldl_pairStep_not (second : Bool) (fs : List (Form α)) :
    fs.foldl (pairStep arrows) (!second)
      = (fs.foldl (pairStep arrows) second ^^ !(arrows && fs.any Form.isArrow)) := by
  induction fs generalizing second with
  | nil => simp
  | cons f fs ih =>
    rw [List.foldl_cons, List.foldl_cons, List.any_cons]
    cases hf : arrows && f.isArrow with
    | true =>
      obtain ⟨rfl, harrow⟩ : arrows = true ∧ f.isArrow = true := by simpa using hf
      simp [pairStep, harrow]
    | false =>
      have hstep : ∀ second, pairStep arrows second f = !second := by simp [pairStep, hf]
      rw [hstep, hstep, ih, Bool.and_or_distrib_left, hf, Bool.false_or]

/-- One more item shifts what is counted behind `leading` others, unless all the items behind it are
among these. -/
theorem foldl_pairStep_insert {x : Form α} (hx : x.isArrow = false) (leading : Nat)
    (xs mid : List (Form α)) :
    ((xs ++ x :: mid).drop (leading + 1)).foldl (pairStep arrows) false
      = (((xs ++ mid).drop (leading + 1)).foldl (pairStep arrows) false ^^
          (decide (leading < (xs ++ mid).length) &&
            !(arrows && (mid.drop (leading + 1 - xs.length)).any Form.isArrow))) := by
  by_cases hlead : leading < xs.length
  · have hstep : ∀ second, pairStep arrows second x = !second := by simp [pairStep, hx]
    rw [List.drop_append_of_le_length (by omega), List.drop_append_of_le_length (by omega),
      List.foldl_append, List.foldl_append, List.foldl_cons, hstep, foldl_pairStep_not,
      Nat.sub_eq_zero_of_le (by omega), List.drop_zero]
    simp
    omega
  · -- The items that are counted begin behind `xs`, so one more of them is counted.
    obtain ⟨k, rfl⟩ := Nat.exists_eq_add_of_le (Nat.not_lt.mp hlead)
    have hdrop : xs.length + k + 1 - xs.length = k + 1 := by omega
    have hxs : xs.drop (xs.length + k + 1) = [] := List.drop_of_length_le (by omega)
    rw [List.drop_append, List.drop_append, hdrop, hxs, List.nil_append, List.nil_append,
      List.drop_succ_cons, List.length_append]
    cases hmid : mid.drop k with
    | nil =>
      have hlength := List.drop_eq_nil_iff.mp hmid
      rw [List.drop_of_length_le (Nat.le_succ_of_le hlength)]
      simp
      omega
    | cons f rest =>
      have hlength : k < mid.length := by
        by_contra hle
        simp [List.drop_of_length_le (Nat.not_lt.mp hle)] at hmid
      have hrest : mid.drop (k + 1) = rest := by
        rw [← List.drop_drop, hmid, List.drop_one, List.tail_cons]
      have hfirst : pairStep arrows false f = !false := by simp [pairStep]
      rw [hrest, List.foldl_cons, hfirst, foldl_pairStep_not]
      simp
      omega

/-- Whether the item behind is the second of a pair, by bare items. -/
theorem secondNext_bare (items : List (Form Hint)) (layout : Layout) :
    secondNext items layout
      = match layout with
        | .bindings => (items.map Form.bare).countP Form.counts % 2 == 1
        | .cond leading arrows =>
          (((items.map Form.bare).filter Form.counts).drop (leading + 1)).foldl (pairStep arrows)
            false
        | _ => false := by
  have hcounts : (Form.counts ∘ Form.bare : Form Hint → Bool) = pairsUp :=
    funext Form.counts_bare
  cases layout with
  | bindings => simp only [secondNext, List.countP_map, hcounts]
  | cond leading arrows =>
    rw [secondNext, pairedCount, foldl_countPair]
    simp only [List.filter_map, hcounts, List.map_drop]
    rfl
  | _ => rfl

/-- One more item that does not count makes no difference to what comes behind; one that does
shifts the pairs, if anything does. -/
theorem secondNext_insert (hitems : items.map Form.bare = xs ++ mid)
    (hitems' : items'.map Form.bare = xs ++ x :: mid) (hx : x.isArrow = false) :
    secondNext items' layout
      = (secondNext items layout ^^ (x.counts && shiftsPairs xs mid layout)) := by
  rw [secondNext_bare, secondNext_bare, hitems, hitems']
  cases hcounts : x.counts with
  | false => cases layout <;> simp [hcounts]
  | true =>
    cases layout with
    | bindings =>
      have hcount : (xs ++ x :: mid).countP Form.counts = (xs ++ mid).countP Form.counts + 1 := by
        simp [hcounts]
        omega
      simp only [shiftsPairs, hcount]
      generalize (xs ++ mid).countP Form.counts = n
      rcases Nat.mod_two_eq_zero_or_one n with hn | hn <;> simp [hn, Nat.add_mod]
    | cond leading arrows =>
      simp only [shiftsPairs, List.filter_append, List.filter_cons_of_pos hcounts,
        foldl_pairStep_insert hx, List.countP_eq_length_filter, Bool.true_and]
    | _ => simp [shiftsPairs]

/-! ## 3. Binding vectors -/

variable {before : List (Form Hint)} {cur : Cursor} {f : Form Hint}

/-- A cursor behind the items `before` of a binding vector whose items start at column `w`. The
items may begin with a line break, which moves no line. -/
structure Cursor.Binds (w : Nat) (before : List (Form Hint)) (cur : Cursor) : Prop where
  counted : cur.counted = before.countP pairsUp
  afterComment : cur.afterComment = endsInComment before
  hanging : cur.hanging = (endsInNewline before && secondNext before .bindings)
  base : cur.base = w + hang cur.hanging
  broken : endsInNewline before = true → cur.gap = .indent ∧ cur.col = cur.base

theorem Cursor.Binds.breakLine (h : cur.Binds w before) :
    (cur.breakLine .bindings).base = w + hang (secondNext before .bindings) ∧
      (cur.breakLine .bindings).hanging = secondNext before .bindings := by
  have hsecond : cur.atSecond .bindings = secondNext before .bindings := by
    simp [Cursor.atSecond, secondNext, h.counted]
  have hhanging := h.hanging
  have hbase := h.base
  unfold Cursor.breakLine
  simp only [Cursor.stepsIn, hsecond]
  cases hs : secondNext before .bindings with
  | false => simp_all
  | true => cases hc : cur.hanging <;> simp_all [hang]

theorem binds_start (w : Nat) : (Cursor.start w).Binds w [] :=
  ⟨rfl, rfl, rfl, rfl, fun h => absurd h (by simp [endsInNewline])⟩

theorem Cursor.Binds.passNewline (h : cur.Binds w before) (hf : f.isNewline = true) :
    (cur.passNewline .bindings).Binds w (before ++ [f]) := by
  obtain ⟨hbase, hhanging⟩ := h.breakLine
  have hcomment : f.isComment = false := by
    obtain ⟨hint, rfl⟩ := Form.eq_newline hf
    rfl
  refine ⟨?_, ?_, ?_, ?_, fun _ => ⟨rfl, rfl⟩⟩
  · simp [Cursor.passNewline, Cursor.breakLine, h.counted, pairsUp_of_newline hf]
  · rw [endsInComment_snoc, hcomment]
    rfl
  · rw [endsInNewline_snoc, hf, secondNext_newline hf, Bool.true_and]
    exact hhanging
  · exact hbase.trans (congrArg (w + hang ·) hhanging.symm)

/-- A binding vector has no second item that moves its lines. -/
theorem Cursor.enter_of_bindings (cur : Cursor) (f : Form Hint) :
    cur.enter .bindings f = (cur.close .bindings).count .bindings f := by
  unfold Cursor.enter Cursor.close
  cases cur.afterComment with
  | true => rfl
  | false => exact Cursor.reachSecond_of_not_deepens (rfl : deepens .bindings = false)

theorem Cursor.Binds.close (h : cur.Binds w before) :
    (cur.close .bindings).base = w + hang (cur.close .bindings).hanging ∧
      (cur.close .bindings).counted = before.countP pairsUp := by
  obtain ⟨hbase, hhanging⟩ := h.breakLine
  unfold Cursor.close
  cases cur.afterComment with
  | true => exact ⟨hbase.trans (congrArg (w + hang ·) hhanging.symm), h.counted⟩
  | false => exact ⟨h.base, h.counted⟩

theorem Cursor.Binds.past (h : cur.Binds w before) (hf : f.isNewline = false) :
    (cur.past .bindings f).Binds w (before ++ [f]) := by
  obtain ⟨hbase, hcounted⟩ := h.close
  have hcounts := (@Cursor.counts_snoc .bindings before _ hcounted (fun _ _ h => nomatch h) f).1
  obtain ⟨counted, paired, hcount⟩ := (cur.close .bindings).count_eq .bindings f
  rw [Cursor.past, Cursor.enter_of_bindings]
  refine ⟨hcounts, ?_, ?_, ?_, ?_⟩
  · rw [endsInComment_snoc]
    rfl
  · rw [endsInNewline_snoc, hf]
    rfl
  · rw [hcount]
    have hleave : (if (cur.close .bindings).hanging then (cur.close .bindings).base - 2
        else (cur.close .bindings).base) = w := by
      rw [hbase]
      cases (cur.close .bindings).hanging <;> rfl
    exact hleave
  · rw [endsInNewline_snoc, hf]
    simp

/-- What a cursor remembers is kept along a binding vector. -/
theorem Cursor.Binds.walk (h : cur.Binds w before) (fs : List (Form Hint)) :
    (itemPieces .bindings cur fs).2.Binds w (before ++ fs) := by
  induction fs generalizing cur before with
  | nil => simpa [itemPieces_nil] using h
  | cons f fs ih =>
    rw [List.append_cons]
    cases hf : f.isNewline with
    | true =>
      rw [itemPieces_newline hf]
      exact ih (h.passNewline hf)
    | false =>
      rw [itemPieces_cons hf]
      exact ih (h.past hf)

/-! ## 4. The start of a line -/

/-- Where a line ends without a comment, a line break ends it. -/
theorem exists_of_atLineEnd (hends : AtLineEnd before) (hcomment : endsInComment before = false) :
    ∃ front last, before = front ++ [last] ∧ last.isNewline = true := by
  obtain ⟨last, hlast, hkind⟩ := hends
  obtain ⟨front, rfl⟩ := List.getLast?_eq_some_iff.mp hlast
  rw [endsInComment_snoc] at hcomment
  exact ⟨front, last, rfl, hkind.resolve_right (by simp [hcomment])⟩

/-- Where a line ends in a binding vector, an item starts the next one. -/
theorem Cursor.Binds.enter_startsLine (h : cur.Binds w before)
    (hends : AtLineEnd before) (f : Form Hint) :
    (cur.enter .bindings f).StartsLine (w + hang (secondNext before .bindings)) := by
  have hclose : (cur.close .bindings).StartsLine (w + hang (secondNext before .bindings)) := by
    unfold Cursor.close
    cases hcomment : cur.afterComment with
    | true => exact ⟨rfl, h.breakLine.1, h.breakLine.1⟩
    | false =>
      obtain ⟨front, last, hsplit, hlast⟩ := exists_of_atLineEnd hends (h.afterComment ▸ hcomment)
      have hnewline : endsInNewline before = true := by rw [hsplit, endsInNewline_snoc, hlast]
      obtain ⟨hgap, hcol⟩ := h.broken hnewline
      have hbase : cur.base = w + hang (secondNext before .bindings) := by
        rw [h.base, h.hanging, hnewline, Bool.true_and]
      exact ⟨hgap, hbase, hcol.trans hbase⟩
  obtain ⟨counted, paired, hcount⟩ := (cur.close .bindings).count_eq .bindings f
  rw [Cursor.enter_of_bindings, hcount]
  exact ⟨hclose.gap, hclose.base, hclose.col⟩

/-- The item with the index `j` of a sequence whose items start at column `w` is the first on its
line, and is indented by `n` columns. -/
def LineAt (layout : Layout) (w : Nat) (items : List (Form Hint)) (j n : Nat) : Prop :=
  ∃ before f rest front later, items = before ++ f :: rest ∧ before.length = j ∧
    (itemPieces layout (.start w) before).1 ++ lineBreak before = front ++ [.newline] ∧
    (itemPieces layout (.start w) items).1
      = front ++ .newline :: .indent n :: (formPieces f n).1 ++ later

/-- Behind a line break or a comment, an item is the first on its line. -/
theorem lineAt_of_startsLine {n : Nat} {rest : List (Form Hint)} (hf : f.isNewline = false)
    (hends : AtLineEnd before)
    (hcomment : (itemPieces layout (.start w) before).2.afterComment = endsInComment before)
    (hstart : ((itemPieces layout (.start w) before).2.enter layout f).StartsLine n) :
    LineAt layout w (before ++ f :: rest) before.length n := by
  have hbreak : (itemPieces layout (.start w) before).2.commentPieces = lineBreak before := by
    rw [Cursor.commentPieces, hcomment]
    rfl
  have hfront : ∃ front, (itemPieces layout (.start w) before).1 ++ lineBreak before
      = front ++ [.newline] := by
    cases hcomment : endsInComment before with
    | true => exact ⟨_, by rw [lineBreak, if_pos hcomment]⟩
    | false =>
      obtain ⟨before, last, rfl, hlast⟩ := exists_of_atLineEnd hends hcomment
      refine ⟨(itemPieces layout (.start w) before).1, ?_⟩
      rw [lineBreak, if_neg (by simp [hcomment]), List.append_nil, itemPieces_append,
        itemPieces_newline hlast, itemPieces_nil]
  obtain ⟨front, hfront⟩ := hfront
  have hitem : ((itemPieces layout (.start w) before).2.enter layout f).itemCol = n := by
    rw [Cursor.itemCol, if_neg (by simp [hstart.gap]), hstart.col]
  refine ⟨before, f, rest, front,
    (itemPieces layout ((itemPieces layout (.start w) before).2.past layout f) rest).1, rfl, rfl,
    hfront, ?_⟩
  rw [itemPieces_append, itemPieces_cons hf, hbreak, hitem, Cursor.gapPieces, hstart.gap,
    hstart.base]
  simp only [← List.append_assoc, hfront]
  simp

/-- Where the lines of a binding vector or of the pairs behind a head start. -/
theorem lineAt_of_paired {rest : List (Form Hint)}
    (hlayout : layout = .bindings ∨ ∃ leading arrows, layout = .cond leading arrows)
    (hhead : ∀ leading arrows, layout = .cond leading arrows →
      ∀ g ∈ (before ++ f :: rest).head?, g.isNewline = false)
    (hends : AtLineEnd before) (hf : f.isNewline = false) :
    LineAt layout w (before ++ f :: rest) before.length
      (margin w [] layout + hang (secondNext before layout)) := by
  rcases hlayout with rfl | ⟨leading, arrows, rfl⟩
  · have hbinds := (binds_start w).walk before
    exact lineAt_of_startsLine hf hends hbinds.afterComment (hbinds.enter_startsLine hends f)
  · have hlines : LineEnds before := by
      refine ⟨fun g hg => hhead leading arrows rfl g ?_, hends⟩
      rw [List.head?_append, hg]
      rfl
    have hfollows := @follows_of_lineEnds (.cond leading arrows) w before hlines
    exact lineAt_of_startsLine hf hends hfollows.afterComment (hfollows.enter_startsLine hlines f)

/-! ## 5. Around a sequence -/

/-- Two runs of pieces set `P` and `Q` at the same column, behind the same pieces. -/
def MeetAt (P Q : Nat → List Piece) (pieces pieces' : List Piece) : Prop :=
  ∃ v before after after', pieces = before ++ P v ++ after ∧ pieces' = before ++ Q v ++ after'

variable {P Q : Nat → List Piece} {g s s' : Form Hint}

theorem MeetAt.around {pieces pieces' : List Piece} (h : MeetAt P Q pieces pieces')
    (front later later' : List Piece) :
    MeetAt P Q (front ++ pieces ++ later) (front ++ pieces' ++ later') := by
  obtain ⟨v, before, after, after', rfl, rfl⟩ := h
  exact ⟨v, front ++ before, after ++ later, after' ++ later', by simp, by simp⟩

theorem itemPieces_meetAt (hhead : g.shape.head = f.shape.head) (hf : f.isNewline = false)
    (h : ∀ w, MeetAt P Q (formPieces f w).1 (formPieces g w).1) (cur : Cursor)
    (before after : List (Form Hint)) :
    MeetAt P Q (itemPieces layout cur (before ++ f :: after)).1
      (itemPieces layout cur (before ++ g :: after)).1 := by
  have hg : g.isNewline = false := (Transform.isNewline_of_head hhead).trans hf
  simp only [itemPieces_append, itemPieces_cons hf, itemPieces_cons hg,
    Cursor.enter_of_head hhead]
  simp only [← List.append_assoc]
  exact (h _).around _ _ _

/-- Around a form that is replaced by one of its kind, the same is set up to it. -/
theorem formPieces_meetAt (hs : s'.shape.head = s.shape.head) (hnot : s.isNewline = false)
    (h : Replaces s s' f g) (w : Nat) :
    MeetAt (fun v => (formPieces s v).1) (fun v => (formPieces s' v).1) (formPieces f w).1
      (formPieces g w).1 := by
  induction h generalizing w with
  | here => exact ⟨w, [], [], [], by simp, by simp⟩
  | prefixed note p _ ih =>
    rw [formPieces_prefixed, formPieces_prefixed]
    simpa using (ih (w + p.text.length)).around [.text w p.text] [] []
  | @seq f g hint b before after hfg ih =>
    have hitems := @itemPieces_meetAt hint.layout f _ _ g (hfg.head hs) (hfg.isNewline hnot) ih
      (.start (w + b.openText.length)) before after
    rw [formPieces_seq, formPieces_seq]
    simpa using hitems.around [.text w b.openText] _ _

/-! ## 6. One more item -/

/-- Where a line ends, it ends whatever the annotations. -/
theorem atLineEnd_of_bare {front mid : List (Form Unit)} (h : before.map Form.bare = front ++ mid)
    (hends : AtLineEnd mid) : AtLineEnd before := by
  obtain ⟨last, hlast, hkind⟩ := hends
  have hmap : before.getLast?.map Form.bare = some last := by
    rw [← List.getLast?_map, h, List.getLast?_append, Option.mem_def.mp hlast, Option.some_or]
  obtain ⟨last', hlast', rfl⟩ := Option.map_eq_some_iff.mp hmap
  exact ⟨last', hlast', by simpa using hkind⟩

/-- Items that do not begin with a line break do not with an attached form among them either. -/
theorem head_insert (hitems : items.map Form.bare = xs ++ ys)
    (hitems' : items'.map Form.bare = xs ++ x :: ys) (hx : x.shape.isAttached = true)
    (h : ∀ f ∈ items.head?, f.isNewline = false) : ∀ f ∈ items'.head?, f.isNewline = false := by
  intro f hf
  have hbare : (xs ++ x :: ys).head? = some f.bare := by
    rw [← hitems', List.head?_map, hf, Option.map_some]
  rw [← Form.isNewline_bare]
  cases xs with
  | nil =>
    obtain rfl : x = f.bare := by simpa using hbare
    exact Form.isNewline_of_isAttached hx
  | cons head xs =>
    obtain rfl : head = f.bare := by simpa using hbare
    obtain ⟨head, rest, rfl, hhead, -⟩ := List.map_eq_cons_iff.mp hitems
    rw [← hhead, Form.isNewline_bare]
    exact h head rfl

/-- With an attached form among the items of a binding vector, or behind the head of a `cond`, a
later item that starts a line is set as before, unless the pairs are shifted up to it. -/
theorem lineAt_insert {k : Form Unit} {rest : List (Form Unit)}
    (hlayout : layout = .bindings ∨ ∃ leading arrows, layout = .cond leading arrows)
    (hitems : items.map Form.bare = xs ++ (mid ++ k :: rest))
    (hitems' : items'.map Form.bare = xs ++ x :: (mid ++ k :: rest))
    (hx : x.shape.isAttached = true)
    (hhead : ∀ leading arrows, layout = .cond leading arrows →
      ∀ f ∈ items.head?, f.isNewline = false) (hk : k.isNewline = false)
    (hends : AtLineEnd mid) (w : Nat) :
    ∃ second,
      LineAt layout w items (xs.length + mid.length) (margin w [] layout + hang second) ∧
        LineAt layout w items' (xs.length + 1 + mid.length)
          (margin w [] layout + hang (second ^^ (x.counts && shiftsPairs xs mid layout))) := by
  have hhead' := fun leading arrows hcond =>
    head_insert hitems hitems' hx (hhead leading arrows hcond)
  rw [← List.append_assoc] at hitems
  rw [← List.cons_append, ← List.append_assoc] at hitems'
  obtain ⟨before, later, rfl, hbefore, hlater⟩ := List.map_eq_append_iff.mp hitems
  obtain ⟨f, back, rfl, rfl, -⟩ := List.map_eq_cons_iff.mp hlater
  obtain ⟨before', later', rfl, hbefore', hlater'⟩ := List.map_eq_append_iff.mp hitems'
  obtain ⟨f', back', rfl, hf', -⟩ := List.map_eq_cons_iff.mp hlater'
  have hk' : f'.isNewline = false := by rw [← Form.isNewline_bare, hf', hk]
  rw [Form.isNewline_bare] at hk
  have hlength := congrArg List.length hbefore
  have hlength' := congrArg List.length hbefore'
  simp only [List.length_map, List.length_append, List.length_cons] at hlength hlength'
  have hindex : before'.length = xs.length + 1 + mid.length := by omega
  have hline := lineAt_of_paired (w := w) hlayout hhead (atLineEnd_of_bare hbefore hends) hk
  refine ⟨secondNext before layout, hlength ▸ hline, ?_⟩
  rw [← secondNext_insert hbefore hbefore' (Form.isArrow_of_isAttached hx), ← hindex]
  rw [List.append_cons] at hbefore'
  exact lineAt_of_paired hlayout hhead' (atLineEnd_of_bare hbefore' hends) hk'

end Layout

/-! ## 7. Sources -/

open Layout

/-- One more form that belongs to a neighbour, anywhere but at the head of a list, changes nothing
before it, and all around its sequence is laid out as before. In a binding vector, or behind the
head of a `cond`, a later item that starts a line is indented as before, unless the form counts and
shifts the pairs up to the item. In that case the item is set at the margin if it hung two columns
deeper, and hangs if it was set at the margin. -/
theorem format_attached {config : Config} {source source' : String} {d d' : Reader.Document}
    {b : Bracket} {xs ys : List (Form Unit)} {x : Form Unit}
    (hread : Reader.read config.options source = .ok d)
    (hread' : Reader.read config.options source' = .ok d')
    (h : ReplacesAmong (.seq () b (xs ++ ys)) (.seq () b (xs ++ x :: ys))
      ((Transform.applyAll config.transforms d.roots).map Form.bare)
      ((Transform.applyAll config.transforms d'.roots).map Form.bare))
    (hx : x.shape.isAttached = true) (hhead : b = .list ∨ b = .fnLiteral → xs ≠ [])
    (hstyle : SameStyles config.table (Transform.applyAll config.transforms d.roots)
      (Transform.applyAll config.transforms d'.roots)) :
    ∃ layout v items items' before after after',
      items.map Form.bare = xs ++ ys ∧ items'.map Form.bare = xs ++ x :: ys ∧
      ReplacesAmong (.seq { layout } b items) (.seq { layout } b items')
        (planned config.table (Transform.applyAll config.transforms d.roots))
        (planned config.table (Transform.applyAll config.transforms d'.roots)) ∧
      format config source = .ok (toText config.indentChar
        (before ++ (formPieces (.seq { layout } b items) v).1 ++ after)) ∧
      format config source' = .ok (toText config.indentChar
        (before ++ (formPieces (.seq { layout } b items') v).1 ++ after')) ∧
      ((layout = .bindings ∨ ∃ leading arrows, layout = .cond leading arrows) →
        ∀ (mid : List (Form Unit)) (k : Form Unit) rest,
          ys = mid ++ k :: rest → k.isNewline = false → AtLineEnd mid →
          let w := v + b.openText.length
          ∃ second,
            LineAt layout w items (xs.length + mid.length) (margin w [] layout + hang second) ∧
            LineAt layout w items' (xs.length + 1 + mid.length)
              (margin w [] layout + hang (second ^^ (x.counts && shiftsPairs xs mid layout)))) := by
  have hfirst : b = .list ∨ b = .fnLiteral → (xs ++ x :: ys).head? = (xs ++ ys).head? := by
    intro hb
    rw [List.head?_append_of_ne_nil _ (hhead hb), List.head?_append_of_ne_nil _ (hhead hb)]
  have hsub : (xs ++ ys).Sublist (xs ++ x :: ys) :=
    (List.sublist_cons_self x ys).append_left xs
  obtain ⟨layout, items, items', hitems, hitems', hcond, hplanned⟩ :=
    planned_replaced (nodup_ids_applyAll hread config.transforms)
      (nodup_ids_applyAll hread' config.transforms) h hsub hfirst hstyle
  obtain ⟨front, f, g, back, hroots, hroots', hfg⟩ := hplanned
  have hkind : g.shape.head = f.shape.head := hfg.head (by rfl)
  have hnot : f.isNewline = false := hfg.isNewline (by rfl)
  have hmeet := fun w => formPieces_meetAt (by rfl) (by rfl) hfg w
  obtain ⟨v, before, after, after', hpieces, hpieces'⟩ :=
    @itemPieces_meetAt .normal f _ _ g hkind hnot hmeet (.start 0) front back
  refine ⟨layout, v, items, items', before, after, after', hitems, hitems',
    ⟨front, f, g, back, hroots, hroots', hfg⟩, ?_, ?_, ?_⟩
  · have hformat := format_of_read_ok hread
    rw [hformat, ← hpieces, ← hroots]
    rfl
  · have hformat := format_of_read_ok hread'
    rw [hformat, ← hpieces', ← hroots']
    rfl
  · rintro hlayout mid k rest rfl hk hends
    exact lineAt_insert hlayout hitems hitems' hx hcond hk hends _

/-- In front of the `b` of a `let`, a discarded form shifts the pairs up to the `2` on the next
line. -/
theorem format_attached_let :
    ∃ d d', Reader.read .everything "(let [a 1\nb\n2]\na)" = .ok d ∧
      Reader.read .everything "(let [a 1\n#_x b\n2]\na)" = .ok d' ∧
      ∃ v items items' before after after' second,
        ReplacesAmong (.seq { layout := .bindings } .vector items)
          (.seq { layout := .bindings } .vector items') (planned {} d.roots) (planned {} d'.roots) ∧
        format {} "(let [a 1\nb\n2]\na)" = .ok (toText ' '
          (before ++ (formPieces (.seq { layout := .bindings } .vector items) v).1 ++ after)) ∧
        format {} "(let [a 1\n#_x b\n2]\na)" = .ok (toText ' '
          (before ++ (formPieces (.seq { layout := .bindings } .vector items') v).1 ++ after')) ∧
        LineAt .bindings (v + 1) items 5 (v + 1 + hang second) ∧
        LineAt .bindings (v + 1) items' 6 (v + 1 + hang (!second)) := by
  let symbol (name : String) : Form Unit := .atom () (.symbol name)
  let newline : Form Unit := .atom () .newline
  let xs : List (Form Unit) := [symbol "a", .atom () (.number "1"), newline]
  let ys : List (Form Unit) := [symbol "b", newline, .atom () (.number "2")]
  let x : Form Unit := .prefixed () .readerDiscard (symbol "x")
  have hread : ∃ d d', Reader.read .everything "(let [a 1\nb\n2]\na)" = .ok d ∧
      Reader.read .everything "(let [a 1\n#_x b\n2]\na)" = .ok d' ∧
      ReplacesAmong (.seq () .vector (xs ++ ys)) (.seq () .vector (xs ++ x :: ys))
        (d.roots.map Form.bare) (d'.roots.map Form.bare) ∧
      ∀ f ∈ Form.nodesAll (planned {} d'.roots),
        f.shape.vector?.isSome = true → f.note.layout = .bindings :=
    ⟨_, _, rfl, rfl, ⟨[], _, _, [], rfl, rfl,
      .seq () .list [symbol "let"] [newline, symbol "a"] .here⟩, by decide⟩
  obtain ⟨d, d', hread, hread', hreplaces, hbinds⟩ := hread
  have hattached := @format_attached {} _ _ d d' .vector xs ys x hread hread'
  rw [Transform.applyAll_nil, Transform.applyAll_nil] at hattached
  obtain ⟨layout, v, items, items', before, after, after', -, -, hplanned, hformat, hformat',
    hlines⟩ := hattached hreplaces rfl (by simp) (style_default rfl rfl)
  obtain rfl : layout = .bindings := by
    obtain ⟨front, f, g, back, -, hroots, hfg⟩ := hplanned
    have hmem : .seq { layout } .vector items' ∈ Form.nodesAll (planned {} d'.roots) :=
      Form.mem_nodesAll (hroots ▸ List.mem_append_right front List.mem_cons_self) hfg.mem_nodes
    exact hbinds _ hmem rfl
  obtain ⟨second, hline, hline'⟩ :=
    hlines (.inl rfl) [symbol "b", newline] _ [] rfl rfl ⟨newline, rfl, .inl rfl⟩
  have hshift : (second ^^ (x.counts && shiftsPairs xs [symbol "b", newline] .bindings))
      = !second := by
    cases second <;> rfl
  rw [hshift] at hline'
  exact ⟨d, d', hread, hread', v, items, items', before, after, after', second, hplanned, hformat,
    hformat', hline, hline'⟩

/-- A discarded form in front of `b` takes away the two columns by which `2` hangs. So does a tag
that belongs to `b`; metadata of `b` does not. In a libspec any of them may take away the short name
by which the list itself has its style. -/
theorem discard_shifts_pairs :
    format {} "(let [a 1\nb\n2]\na)" = .ok "(let [a 1\n      b\n        2]\n  a)" ∧
      format {} "(let [a 1\n#_x b\n2]\na)" = .ok "(let [a 1\n      #_x b\n      2]\n  a)" ∧
      format {} "(let [a 1\n#t b\n2]\na)" = .ok "(let [a 1\n      #t b\n      2]\n  a)" ∧
      format {} "(let [a 1\n^m b\n2]\na)" = .ok "(let [a 1\n      ^m b\n        2]\n  a)" ∧
      format { table := { styles := (∅ : StyleMap).insert "q/foo/foo" .cond0 } }
          "(ns n (:require (q/foo :as q\n:refer [a])))"
        = .ok "(ns n (:require (q/foo :as q\n                  :refer [a])))" ∧
      format { table := { styles := (∅ : StyleMap).insert "q/foo/foo" .cond0 } }
          "(ns n (:require (q/foo #_x :as q\n:refer [a])))"
        = .ok "(ns n (:require (q/foo #_x :as q\n                       :refer [a])))" :=
  ⟨rfl, rfl, rfl, rfl, rfl, rfl⟩

end CljFormat
