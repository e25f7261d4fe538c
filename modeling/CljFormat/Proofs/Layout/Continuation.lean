/-
CljFormat.Proofs.Layout.Continuation — where the lines of a sequence start.

The layout keeps a cursor, and a cursor remembers counts and columns of the items behind it. What it
all amounts to is said here by the items alone (`lineStart`): a layout has a margin, to which the
second of a pair adds two columns. The items behind a cursor determine everything it remembers
(`Cursor.Follows`), so every line of a sequence starts where they say (`lineStart_of_lineEnds`).

A sequence that begins with a line break is left out. Its first item is taken for a head that ends
its line, and the lines behind start elsewhere.
-/
import CljFormat.Proofs.Layout.Margin

namespace CljFormat.Layout

variable {layout : Layout} {w : Nat} {f : Form Hint} {before : List (Form Hint)} {cur : Cursor}

/-! ## 1. Where lines start -/

/-- Whether an item counts as the first or the second of a pair: neither a comment nor a line break
nor metadata. -/
def pairsUp : Form Hint → Bool
  | .atom _ (.comment _) | .atom _ .newline | .prefixed _ .metadata _ => false
  | _ => true

/-- Counts an item of a pair. With `arrows`, a `:>>` behind the first of a pair does not count. -/
def countPair (arrows : Bool) (n : Nat) (f : Form Hint) : Nat :=
  if arrows = true ∧ n % 2 = 1 ∧ f.shape.keyword? = some ":>>" then n else n + 1

/-- How many items of pairs there are behind the head of a sequence and `leading` single items. -/
def pairedCount (leading : Nat) (arrows : Bool) (before : List (Form Hint)) : Nat :=
  ((before.filter pairsUp).drop (leading + 1)).foldl (countPair arrows) 0

/-- Whether the item behind `before` is the second of a pair. -/
def secondNext (before : List (Form Hint)) : Layout → Bool
  | .bindings => before.countP pairsUp % 2 == 1
  | .cond leading arrows => pairedCount leading arrows before % 2 == 1
  | _ => false

/-- Where the lines of a sequence start whose items start at column `w`, pairs apart. -/
def margin (w : Nat) (before : List (Form Hint)) : Layout → Nat
  | .normal | .bindings => w
  | .listBody | .cond _ _ => w + 1
  | .list =>
    match before with
    | [] => w
    | head :: rest =>
      if head.isComment = true ∨ ∃ second ∈ rest.head?, second.isNewline = true then w + 1
      else (formPieces head w).2 + 1

/-- Where a line of a sequence starts behind the items `before`. -/
def lineStart (w : Nat) (before : List (Form Hint)) (layout : Layout) : Nat :=
  margin w before layout + if secondNext before layout then 2 else 0

/-- A line ends behind some items, the first of which is no line break. -/
structure LineEnds (before : List (Form Hint)) : Prop where
  head : ∀ f ∈ before.head?, f.isNewline = false
  last : ∃ f ∈ before.getLast?, f.isNewline = true ∨ f.isComment = true

/-- Whether the last of some items is a comment. -/
def endsInComment (before : List (Form Hint)) : Bool :=
  before.getLast?.any Form.isComment

/-- Whether the last of some items is a line break. -/
def endsInNewline (before : List (Form Hint)) : Bool :=
  before.getLast?.any Form.isNewline

/-! ## 2. Counting -/

theorem pairsUp_of_newline (h : f.isNewline = true) : pairsUp f = false := by
  obtain ⟨hint, rfl⟩ := Form.eq_newline h
  rfl

theorem Cursor.count_of_not_pairsUp (h : pairsUp f = false) (layout : Layout) (cur : Cursor) :
    cur.count layout f = cur := by
  cases f with
  | atom hint x => cases x <;> first | rfl | exact absurd h (by simp [pairsUp])
  | prefixed hint s body => cases s <;> first | rfl | exact absurd h (by simp [pairsUp])
  | seq hint b items => exact absurd h (by simp [pairsUp])

/-- An item that belongs to a pair is counted. -/
theorem Cursor.count_of_pairsUp (h : pairsUp f = true) (layout : Layout) (cur : Cursor) :
    cur.count layout f
      = match layout with
        | .cond leading arrows =>
          { cur with
            counted := cur.counted + 1
            paired := if leading < cur.counted then countPair arrows cur.paired f else cur.paired }
        | _ => { cur with counted := cur.counted + 1 } := by
  have hcond : ∀ leading arrows,
      (if (decide (leading + 1 < cur.counted + 1) &&
          !(arrows && cur.paired % 2 == 1 && f.shape.keyword? == some ":>>")) = true then
        cur.paired + 1 else cur.paired)
      = if leading < cur.counted then countPair arrows cur.paired f else cur.paired := by
    intro leading arrows
    simp only [countPair]
    grind
  have hcounted : cur.count layout f
      = match layout with
        | .cond leading arrows =>
          { cur with
            counted := cur.counted + 1
            paired :=
              if (decide (leading + 1 < cur.counted + 1) &&
                !(arrows && cur.paired % 2 == 1 && f.shape.keyword? == some ":>>")) = true then
                cur.paired + 1 else cur.paired }
        | _ => { cur with counted := cur.counted + 1 } := by
    cases f with
    | atom hint x => cases x <;> first | rfl | exact absurd h (by simp [pairsUp])
    | prefixed hint s body => cases s <;> first | rfl | exact absurd h (by simp [pairsUp])
    | seq hint b items => rfl
  rw [hcounted]
  cases layout <;> first | rfl | simp only [hcond]

/-! ## 3. What a cursor remembers -/

/-- A cursor behind the items `before` of a sequence whose items start at column `w`. -/
structure Cursor.Follows (layout : Layout) (w : Nat) (before : List (Form Hint)) (cur : Cursor) :
    Prop where
  index : cur.index = before.length
  counted : cur.counted = before.countP pairsUp
  paired : ∀ leading arrows, layout = .cond leading arrows →
    cur.paired = pairedCount leading arrows before
  headEnd : ∀ head ∈ before.head?, cur.headEnd = (formPieces head w).2
  afterComment : cur.afterComment = endsInComment before
  hanging : cur.hanging = (endsInNewline before && secondNext before layout)
  base : cur.base = (if before.length < 2 then w else margin w before layout) +
    if cur.hanging then 2 else 0
  broken : endsInNewline before = true → cur.gap = .indent ∧ cur.col = cur.base

theorem Cursor.Follows.atSecond (h : cur.Follows layout w before) :
    cur.atSecond layout = secondNext before layout := by
  cases layout with
  | bindings => simp [Cursor.atSecond, secondNext, h.counted]
  | cond leading arrows => simp [Cursor.atSecond, secondNext, h.paired leading arrows rfl]
  | _ => rfl

/-- A single item leaves nothing to pair in a `cond`. -/
theorem pairedCount_of_length_le_one (leading : Nat) (arrows : Bool) (h : before.length ≤ 1) :
    pairedCount leading arrows before = 0 := by
  have hfilter := List.length_filter_le pairsUp before
  rw [pairedCount, List.drop_of_length_le (by omega)]
  rfl

/-- The margin is settled by the first two items. -/
theorem margin_append (h : 2 ≤ before.length) (gs : List (Form Hint)) :
    margin w (before ++ gs) layout = margin w before layout := by
  match before, h with
  | _ :: _ :: _, _ => cases layout <;> rfl

theorem pairedCount_snoc (leading : Nat) (arrows : Bool) (before : List (Form Hint))
    (f : Form Hint) :
    pairedCount leading arrows (before ++ [f])
      = if pairsUp f = true ∧ leading < before.countP pairsUp then
          countPair arrows (pairedCount leading arrows before) f
        else pairedCount leading arrows before := by
  simp only [pairedCount, List.filter_append, List.countP_eq_length_filter]
  generalize before.filter pairsUp = items
  cases hf : pairsUp f with
  | false => simp [hf]
  | true =>
    rw [List.filter_cons_of_pos hf, List.filter_nil, List.drop_append]
    by_cases hlead : leading < items.length
    · rw [Nat.sub_eq_zero_of_le (by omega), List.drop_zero, List.foldl_append, if_pos ⟨rfl, hlead⟩]
      rfl
    · have hrest : [f].drop (leading + 1 - items.length) = [] :=
        List.drop_of_length_le (by simp; omega)
      rw [hrest, List.append_nil, if_neg fun h => hlead h.2]

theorem Cursor.Follows.stepsIn (h : cur.Follows layout w before) (hlen : 2 ≤ before.length) :
    cur.stepsIn layout = false := by
  have hindex : cur.index ≠ 1 := by rw [h.index]; omega
  cases layout <;> simp [Cursor.stepsIn, hindex]

/-- A line that is broken starts where `lineStart` says. -/
theorem Cursor.Follows.breakLine (h : cur.Follows layout w before) (hne : before ≠ [])
    (gs : List (Form Hint))
    (hgs : endsInComment before = true ∨ ∃ g ∈ gs.head?, g.isNewline = true) :
    (cur.breakLine layout).base
        = margin w (before ++ gs) layout + (if secondNext before layout then 2 else 0) ∧
      (cur.breakLine layout).hanging = secondNext before layout := by
  have hbase := h.base
  have hhanging := h.hanging
  have hsecond := h.atSecond
  unfold Cursor.breakLine
  match before, hne with
  | [head], _ =>
    have hindex : cur.index = 1 := h.index
    have hnot : cur.hanging = false := by
      rw [hhanging]
      cases hnewline : head.isNewline with
      | false => simp [endsInNewline, hnewline]
      | true =>
        have hpairs := pairsUp_of_newline hnewline
        cases layout <;> simp [secondNext, hpairs, pairedCount_of_length_le_one]
    have hw : cur.base = w := by simpa [hnot] using hbase
    have hlist : margin w (head :: gs) .list = w + 1 := if_pos (by simpa [endsInComment] using hgs)
    cases layout with
    | list => simp [Cursor.stepsIn, hindex, hnot, hsecond, hw, hlist, secondNext]
    | bindings =>
      simp only [Cursor.stepsIn, hnot, hsecond, hw, margin]
      cases secondNext [head] .bindings <;> simp
    | cond leading arrows =>
      simp [Cursor.stepsIn, hindex, hnot, hsecond, hw, margin, secondNext,
        pairedCount_of_length_le_one]
    | _ => simp [Cursor.stepsIn, hindex, hnot, hsecond, hw, margin, secondNext]
  | head :: second :: rest, _ =>
    have hlen : 2 ≤ (head :: second :: rest).length := by simp
    have hmargin : cur.base = margin w (head :: second :: rest) layout +
        if cur.hanging then 2 else 0 := by
      rw [hbase, if_neg (by simp)]
    simp only [h.stepsIn hlen, margin_append hlen, hsecond]
    rw [hmargin]
    cases hs : secondNext (head :: second :: rest) layout with
    | false => simp [hhanging, hs]
    | true => cases hc : cur.hanging <;> simp

/-! ## 4. Walking along a sequence -/

theorem endsInComment_snoc (before : List (Form Hint)) (f : Form Hint) :
    endsInComment (before ++ [f]) = f.isComment := by
  simp [endsInComment]

theorem endsInNewline_snoc (before : List (Form Hint)) (f : Form Hint) :
    endsInNewline (before ++ [f]) = f.isNewline := by
  simp [endsInNewline]

/-- Counting the item behind `before` keeps the counts those of the items. -/
theorem Cursor.counts_snoc (cur : Cursor) (hcounted : cur.counted = before.countP pairsUp)
    (hpaired : ∀ leading arrows, layout = .cond leading arrows →
      cur.paired = pairedCount leading arrows before) (f : Form Hint) :
    (cur.count layout f).counted = (before ++ [f]).countP pairsUp ∧
      ∀ leading arrows, layout = .cond leading arrows →
        (cur.count layout f).paired = pairedCount leading arrows (before ++ [f]) := by
  cases hf : pairsUp f with
  | false =>
    rw [cur.count_of_not_pairsUp hf]
    refine ⟨by simp [hf, hcounted], fun leading arrows hlayout => ?_⟩
    simp [pairedCount_snoc, hf, hpaired leading arrows hlayout]
  | true =>
    rw [cur.count_of_pairsUp hf]
    constructor
    · cases layout <;> simp [hf, hcounted]
    · rintro leading arrows rfl
      simp [pairedCount_snoc, hf, hcounted, hpaired leading arrows rfl]

theorem secondNext_newline (hf : f.isNewline = true) :
    secondNext (before ++ [f]) layout = secondNext before layout := by
  have hpairs := pairsUp_of_newline hf
  cases layout <;> simp [secondNext, pairedCount_snoc, hpairs]

theorem Cursor.Follows.passNewline (h : cur.Follows layout w before) (hne : before ≠ [])
    (hf : f.isNewline = true) :
    (cur.passNewline layout).Follows layout w (before ++ [f]) := by
  have hpairs := pairsUp_of_newline hf
  obtain ⟨hbase, hhanging⟩ := h.breakLine hne [f] (.inr ⟨f, rfl, hf⟩)
  have hcomment : f.isComment = false := by
    obtain ⟨hint, rfl⟩ := Form.eq_newline hf
    rfl
  have hhang : (cur.passNewline layout).hanging = secondNext before layout := hhanging
  have hlen : 2 ≤ (before ++ [f]).length := by
    have hpos := List.length_pos_iff.mpr hne
    rw [List.length_append, List.length_singleton]
    omega
  refine ⟨by simp [Cursor.passNewline, Cursor.breakLine, h.index], ?_, ?_, ?_, ?_, ?_, ?_, ?_⟩
  · simp [Cursor.passNewline, Cursor.breakLine, h.counted, hpairs]
  · intro leading arrows hlayout
    rw [pairedCount_snoc]
    simp [Cursor.passNewline, Cursor.breakLine, hpairs, h.paired leading arrows hlayout]
  · intro head hhead
    rw [List.head?_append, Option.or_of_isSome (by simpa using hne)] at hhead
    exact h.headEnd head hhead
  · rw [endsInComment_snoc, hcomment]
    rfl
  · rw [hhang, endsInNewline_snoc, hf, secondNext_newline hf, Bool.true_and]
  · rw [if_neg (by omega), hhang]
    exact hbase
  · exact fun _ => ⟨rfl, rfl⟩

theorem Cursor.reachSecond_of_ne_one (h : cur.index ≠ 1) : cur.reachSecond layout = cur :=
  if_neg h

theorem Cursor.reachSecond_base (h : cur.index = 1) :
    (cur.reachSecond layout).base
      = match layout with
        | .list => cur.headEnd + 1
        | .listBody | .cond _ _ => cur.base + 1
        | _ => cur.base := by
  cases layout <;> exact congrArg Cursor.base (if_pos h)

/-- Where lines start once the item behind `before` is reached. -/
theorem Cursor.Follows.enter_base (h : cur.Follows layout w before) (hne : before ≠ [])
    (hf : f.isNewline = false) :
    (cur.enter layout f).base = margin w (before ++ [f]) layout +
      if (cur.enter layout f).hanging then 2 else 0 := by
  obtain ⟨counted, paired, hcount⟩ := cur.count_eq layout f
  cases hcomment : cur.afterComment with
  | true =>
    obtain ⟨hbase, hhanging⟩ := h.breakLine hne [f] (.inl (h.afterComment ▸ hcomment))
    obtain ⟨_, _, hcount⟩ := (cur.breakLine layout).count_eq layout f
    rw [Cursor.enter, if_pos hcomment, hcount]
    simp only [hbase, hhanging]
  | false =>
    have hbase := h.base
    have hhang : (cur.enter layout f).hanging = cur.hanging := by
      obtain ⟨base, hreach⟩ := (cur.count layout f).reachSecond_eq layout
      rw [Cursor.enter, if_neg (by simp [hcomment]), hreach, hcount]
    have hcountBase : (cur.count layout f).base = cur.base := by rw [hcount]
    have hcountIndex : (cur.count layout f).index = cur.index := by rw [hcount]
    have hcountEnd : (cur.count layout f).headEnd = cur.headEnd := by rw [hcount]
    rw [hhang, Cursor.enter, if_neg (by simp [hcomment])]
    cases before with
    | nil => exact absurd rfl hne
    | cons head rest =>
      cases rest with
      | nil =>
        have hhead : cur.headEnd = (formPieces head w).2 := h.headEnd head rfl
        have hnot : head.isComment = false := by
          simpa [endsInComment, hcomment] using h.afterComment.symm
        have hlist : margin w [head, f] .list = (formPieces head w).2 + 1 :=
          if_neg (by simp [hnot, hf])
        have hhanging := h.hanging
        rw [Cursor.reachSecond_base (hcountIndex.trans h.index), hcountBase, hcountEnd]
        cases layout with
        | list => simp [hhead, hlist, hhanging, secondNext]
        | cond leading arrows =>
          have hnone : pairedCount leading arrows [head] = 0 :=
            pairedCount_of_length_le_one leading arrows (Nat.le_refl 1)
          simpa [hhanging, secondNext, hnone, margin] using hbase
        | listBody => simpa [hhanging, secondNext, margin] using hbase
        | _ => exact hbase
      | cons second rest =>
        have hindex : cur.index ≠ 1 := by simp [h.index]
        rw [if_neg (by simp)] at hbase
        rw [margin_append (by simp), Cursor.reachSecond_of_ne_one (hcountIndex.symm ▸ hindex),
          hcountBase]
        exact hbase

theorem Cursor.Follows.past (h : cur.Follows layout w before) (hne : before ≠ [])
    (hf : f.isNewline = false) : (cur.past layout f).Follows layout w (before ++ [f]) := by
  have hbase := h.enter_base hne hf
  have henter : (cur.enter layout f).index = cur.index ∧
      (cur.enter layout f).headEnd = cur.headEnd ∧
      (cur.enter layout f).counted = (before ++ [f]).countP pairsUp ∧
      ∀ leading arrows, layout = .cond leading arrows →
        (cur.enter layout f).paired = pairedCount leading arrows (before ++ [f]) := by
    cases hcomment : cur.afterComment with
    | true =>
      obtain ⟨counted, paired, hcount⟩ := (cur.breakLine layout).count_eq layout f
      have hcounts := (cur.breakLine layout).counts_snoc h.counted h.paired f
      rw [Cursor.enter, if_pos hcomment]
      exact ⟨by rw [hcount]; rfl, by rw [hcount]; rfl, hcounts⟩
    | false =>
      obtain ⟨counted, paired, hcount⟩ := cur.count_eq layout f
      obtain ⟨base, hreach⟩ := (cur.count layout f).reachSecond_eq layout
      have hcounts := cur.counts_snoc h.counted h.paired f
      rw [Cursor.enter, if_neg (by simp [hcomment]), hreach]
      exact ⟨by rw [hcount], by rw [hcount], hcounts⟩
  obtain ⟨hindex, hheadEnd, hcounted, hpaired⟩ := henter
  have hpos := List.length_pos_iff.mpr hne
  have hlen : 2 ≤ (before ++ [f]).length := by
    rw [List.length_append, List.length_singleton]
    omega
  refine ⟨?_, hcounted, hpaired, ?_, ?_, ?_, ?_, ?_⟩
  · rw [List.length_append, List.length_singleton, ← h.index, ← hindex]
    rfl
  · intro head hhead
    rw [List.head?_append, Option.or_of_isSome (by simpa using hne)] at hhead
    have hzero : ¬ (cur.enter layout f).index = 0 := by rw [hindex, h.index]; omega
    rw [Cursor.past, Cursor.leave, if_neg hzero, hheadEnd]
    exact h.headEnd head hhead
  · rw [endsInComment_snoc]
    rfl
  · rw [endsInNewline_snoc, hf]
    rfl
  · rw [if_neg (by omega)]
    have hleave : (cur.past layout f).base
        = if (cur.enter layout f).hanging then (cur.enter layout f).base - 2
          else (cur.enter layout f).base := rfl
    rw [hleave, hbase]
    cases (cur.enter layout f).hanging <;> rfl
  · rw [endsInNewline_snoc, hf]
    simp

/-- The cursor behind the first item. -/
theorem follows_head {head : Form Hint} (hhead : head.isNewline = false) :
    ((Cursor.start w).past layout head).Follows layout w [head] := by
  obtain ⟨counted, paired, hcount⟩ := (Cursor.start w).count_eq layout head
  have hnone : (Cursor.start w).counted = [].countP pairsUp := rfl
  have hcounts := @Cursor.counts_snoc layout [] (.start w) hnone (fun _ _ _ => rfl) head
  have henter : (Cursor.start w).enter layout head = (Cursor.start w).count layout head :=
    Cursor.reachSecond_of_ne_one (by rw [hcount]; simp [Cursor.start])
  rw [List.nil_append] at hcounts
  rw [Cursor.past, henter]
  refine ⟨by rw [hcount]; rfl, hcounts.1, hcounts.2, ?_, rfl, ?_, by rw [hcount]; rfl, ?_⟩
  · rintro f ⟨⟩
    rw [hcount]
    rfl
  · simp [endsInNewline, hhead, Cursor.leave]
  · simp [endsInNewline, hhead]

/-- What a cursor remembers is kept along a sequence. -/
theorem Cursor.Follows.walk (h : cur.Follows layout w before) (hne : before ≠ [])
    (fs : List (Form Hint)) :
    (itemPieces layout cur fs).2.Follows layout w (before ++ fs) := by
  induction fs generalizing cur before with
  | nil => simpa [itemPieces_nil] using h
  | cons f fs ih =>
    rw [List.append_cons]
    cases hf : f.isNewline with
    | true =>
      rw [itemPieces_newline hf]
      exact ih (h.passNewline hne hf) (by simp)
    | false =>
      rw [itemPieces_cons hf]
      exact ih (h.past hne hf) (by simp)

/-- The cursor behind any items, the first of which is no line break. -/
theorem follows_of_lineEnds (h : LineEnds before) :
    (itemPieces layout (.start w) before).2.Follows layout w before := by
  match before, h with
  | [], h => exact absurd h.last (by simp)
  | head :: rest, h =>
    have hhead : head.isNewline = false := h.head head rfl
    rw [itemPieces_cons hhead]
    exact (follows_head hhead).walk (by simp) rest

/-! ## 5. The start of a line -/

/-- A line break ends a line unless a comment does. -/
theorem LineEnds.newline (h : LineEnds before) (hcomment : endsInComment before = false) :
    endsInNewline before = true ∧ 2 ≤ before.length := by
  obtain ⟨last, hlast, hkind⟩ := h.last
  have hnot : last.isComment = false := by
    simpa [endsInComment, Option.mem_def.mp hlast] using hcomment
  have hnewline : last.isNewline = true := by simpa [hnot] using hkind
  refine ⟨by simpa [endsInNewline, Option.mem_def.mp hlast] using hnewline, ?_⟩
  match before, h with
  | [], _ => simp at hlast
  | [head], h =>
    obtain rfl : head = last := by simpa using hlast
    exact absurd hnewline (by simp [h.head head rfl])
  | _ :: _ :: _, _ => simp

/-- The cursor at the start of a line. -/
structure Cursor.StartsLine (cur : Cursor) (col : Nat) : Prop where
  gap : cur.gap = .indent
  base : cur.base = col
  col : cur.col = col

/-- Where a line ends, the closing delimiter starts the next one. -/
theorem Cursor.Follows.startsLine (h : cur.Follows layout w before) (hends : LineEnds before) :
    (cur.close layout).StartsLine (lineStart w before layout) := by
  cases hcomment : cur.afterComment with
  | true =>
    have hne : before ≠ [] := by
      rintro rfl
      exact absurd hends.last (by simp)
    have hbase := (h.breakLine hne [] (.inl (h.afterComment ▸ hcomment))).1
    rw [List.append_nil] at hbase
    rw [Cursor.close, if_pos hcomment]
    exact ⟨rfl, hbase, hbase⟩
  | false =>
    obtain ⟨hnewline, hlen⟩ := hends.newline (h.afterComment.symm.trans hcomment)
    obtain ⟨hgap, hcol⟩ := h.broken hnewline
    have hbase : cur.base = lineStart w before layout := by
      rw [h.base, if_neg (by omega), h.hanging, hnewline, Bool.true_and]
      rfl
    rw [Cursor.close, if_neg (by simp [hcomment])]
    exact ⟨hgap, hbase, hcol.trans hbase⟩

/-- Where a line ends, an item starts the next one just as a closing delimiter does. -/
theorem Cursor.Follows.enter_startsLine (h : cur.Follows layout w before)
    (hends : LineEnds before) (f : Form Hint) :
    (cur.enter layout f).StartsLine (lineStart w before layout) := by
  have henter : cur.enter layout f = (cur.close layout).count layout f := by
    cases hcomment : cur.afterComment with
    | true => rw [Cursor.enter, if_pos hcomment, Cursor.close, if_pos hcomment]
    | false =>
      obtain ⟨_, _, hcount⟩ := cur.count_eq layout f
      have hlen := (hends.newline (h.afterComment.symm.trans hcomment)).2
      have hindex : (cur.count layout f).index ≠ 1 := by
        rw [hcount]
        exact h.index ▸ (by omega)
      rw [Cursor.enter, if_neg (by simp [hcomment]), Cursor.close, if_neg (by simp [hcomment]),
        Cursor.reachSecond_of_ne_one hindex]
  obtain ⟨hgap, hbase, hcol⟩ := h.startsLine hends
  obtain ⟨counted, paired, hcount⟩ := (cur.close layout).count_eq layout f
  rw [henter, hcount]
  exact ⟨hgap, hbase, hcol⟩

/-! ## 6. Columns that are taken back -/

/-- A line that hangs is at least as deep as the columns that are taken back behind its item. -/
def Cursor.Hangs (layout : Layout) (cur : Cursor) : Prop :=
  cur.hanging = true → 2 ≤ cur.base ∧ layout ≠ .list

theorem Cursor.Hangs.breakLine (h : cur.Hangs layout) : (cur.breakLine layout).Hangs layout := by
  intro hhang
  have hlayout : layout ≠ .list := by
    rintro rfl
    have hcur : cur.hanging = true := by simpa [Cursor.breakLine, Cursor.atSecond] using hhang
    exact (h hcur).2 rfl
  refine ⟨?_, hlayout⟩
  simp only [Cursor.breakLine, Bool.or_eq_true] at hhang ⊢
  cases hcur : cur.hanging with
  | true =>
    have hbase := (h hcur).1
    split <;> simp <;> omega
  | false =>
    have hhangs : (!cur.stepsIn layout && cur.atSecond layout && !cur.hanging) = true := by
      simpa [hcur] using hhang
    simp_all

theorem Cursor.Hangs.count (h : cur.Hangs layout) (f : Form Hint) :
    (cur.count layout f).Hangs layout := by
  obtain ⟨_, _, hcount⟩ := cur.count_eq layout f
  rw [hcount]
  exact h

theorem Cursor.Hangs.reachSecond (h : cur.Hangs layout) :
    (cur.reachSecond layout).Hangs layout := by
  by_cases hindex : cur.index = 1
  · intro hhang
    have hcur : cur.hanging = true := by
      obtain ⟨base, hreach⟩ := cur.reachSecond_eq layout
      rwa [hreach] at hhang
    obtain ⟨hbase, hlayout⟩ := h hcur
    rw [Cursor.reachSecond_base hindex]
    cases layout with
    | list => exact absurd rfl hlayout
    | listBody => exact ⟨Nat.le_succ_of_le hbase, hlayout⟩
    | cond leading arrows => exact ⟨Nat.le_succ_of_le hbase, hlayout⟩
    | _ => exact ⟨hbase, hlayout⟩
  · rw [Cursor.reachSecond_of_ne_one hindex]
    exact h

theorem Cursor.Hangs.enter (h : cur.Hangs layout) (f : Form Hint) :
    (cur.enter layout f).Hangs layout := by
  rw [Cursor.enter]
  split
  · exact h.breakLine.count f
  · exact (h.count f).reachSecond

/-- Along a sequence, only columns are taken back that were added. -/
theorem hangs_walk (h : cur.Hangs layout) (fs : List (Form Hint)) :
    (itemPieces layout cur fs).2.Hangs layout := by
  induction fs generalizing cur with
  | nil => exact h
  | cons f fs ih =>
    cases hf : f.isNewline with
    | true =>
      rw [itemPieces_newline hf]
      exact ih h.breakLine
    | false =>
      rw [itemPieces_cons hf]
      exact ih fun hhang => absurd hhang (by simp [Cursor.past, Cursor.leave])

/-! ## 7. Continuation lines -/

/-- The line break that is put behind items the last of which is a comment. -/
def lineBreak (before : List (Form Hint)) : List Piece :=
  if endsInComment before then [.newline] else []

/-- Wherever a line of a sequence ends, the next line starts at the column that `lineStart` gives,
and starts there with the next item or the closing delimiter. The columns that the second of a pair
hangs deeper are there to be taken back. -/
theorem indent_of_lineEnds (layout : Layout) (w : Nat) (h : LineEnds before) :
    (∀ f rest, f.isNewline = false → ∃ later,
      (itemPieces layout (.start w) (before ++ f :: rest)).1
        = (itemPieces layout (.start w) before).1 ++ lineBreak before ++
          .indent (lineStart w before layout) ::
          (formPieces f (lineStart w before layout)).1 ++ later) ∧
    (∀ docstring b v, w = v + b.openText.length →
      (formPieces (.seq ⟨layout, docstring⟩ b before) v).1
        = .text v b.openText :: (itemPieces layout (.start w) before).1 ++ lineBreak before ++
          [.indent (lineStart w before layout),
            .text (lineStart w before layout) b.closeText]) ∧
    ∀ fs f, f.isNewline = false →
      ((itemPieces layout (.start w) fs).2.enter layout f).hanging = true →
      2 ≤ ((itemPieces layout (.start w) fs).2.enter layout f).base := by
  have hfollows := @follows_of_lineEnds layout w before h
  have hbreak : (itemPieces layout (.start w) before).2.commentPieces = lineBreak before := by
    rw [Cursor.commentPieces, hfollows.afterComment]
    rfl
  refine ⟨?_, ?_, ?_⟩
  · intro f rest hf
    obtain ⟨hgap, hbase, hcol⟩ := hfollows.enter_startsLine h f
    have hitem : ((itemPieces layout (.start w) before).2.enter layout f).itemCol
        = lineStart w before layout := by
      rw [Cursor.itemCol, if_neg (by simp [hgap]), hcol]
    rw [itemPieces_append, itemPieces_cons hf, hbreak, hitem, Cursor.gapPieces, hgap, hbase]
    refine ⟨(itemPieces layout ((itemPieces layout (.start w) before).2.past layout f) rest).1, ?_⟩
    simp
  · rintro docstring b v rfl
    obtain ⟨hgap, hbase, hcol⟩ := hfollows.startsLine h
    rw [formPieces_seq]
    simp [hbreak, hgap, hbase, hcol]
  · intro fs f hf hhang
    exact ((hangs_walk (by simp [Cursor.Hangs, Cursor.start]) fs).enter f hhang).1

/-- Behind `(condp = x 1` on a line, and `:>> ;c` on the next, where a carriage return ends the
comment, `:>>` does not count and `f` hangs. -/
theorem indent_of_lineEnds_condp :
    let before : List (Form Hint) := [.atom {} (.symbol "condp"), .atom {} (.symbol "="),
      .atom {} (.symbol "x"), .atom {} (.number "1"), .atom {} .newline, .atom {} (.keyword ":>>"),
      .atom {} (.comment ";c")]
    LineEnds before ∧ ∃ later,
      (itemPieces (.cond 2 true) (.start 1) (before ++ [.atom {} (.symbol "f")])).1
        = (itemPieces (.cond 2 true) (.start 1) before).1 ++ [.newline] ++
          .indent 4 :: [.text 4 "f"] ++ later := by
  intro before
  have hends : LineEnds before := ⟨by simp [before]; rfl, ⟨_, rfl, .inr rfl⟩⟩
  exact ⟨hends, (indent_of_lineEnds (.cond 2 true) 1 hends).1 (.atom {} (.symbol "f")) [] rfl⟩

end CljFormat.Layout
