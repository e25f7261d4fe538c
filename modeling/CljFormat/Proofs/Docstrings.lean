/-
CljFormat.Proofs.Docstrings — what a docstring still is once it is set.

Setting a docstring keeps its lines but for the white space around those after the first, and
between quotes it is one string again, unless it swallows its closing quote: then the white space
that is dropped is what an odd number of backslashes at the end of the last line escaped
(`quotable_settled_iff`).

How deep a line stands is measured in spaces, whatever the indentation is written with. Set with
spaces, a docstring keeps its places for good. Set with tabs, a line that stood deeper than the
quote loses the rest of its depth the next time (`settled_settled_line_iff`).
-/
import CljFormat.Format
import CljFormat.Proofs.Layout.Settle
import CljFormat.Proofs.Token.Alone

namespace CljFormat.Layout

variable {c : Char} {w : Nat} {s : String} {line : List Char}

/-! ## 1. Quotes -/

/-- Only what stands behind its last other character ends a text in backslashes. -/
theorem trailingBackslashes_append_cons {d : Char} (hd : d ≠ '\\') (before cs : List Char) :
    trailingBackslashes (before ++ d :: cs) = trailingBackslashes cs := by
  have hstop : (d :: before.reverse).takeWhile (· == '\\') = [] := by simp [hd]
  rw [trailingBackslashes, trailingBackslashes, List.reverse_append, List.reverse_cons,
    List.append_assoc, List.singleton_append, List.takeWhile_append, hstop, List.append_nil]
  split
  · next hall => rw [(List.takeWhile_prefix _).eq_of_length hall]
  · rfl

theorem trailingBackslashes_white_append {white : List Char}
    (h : ∀ d ∈ white, Text.isWhiteSpace d = true) (cs : List Char) :
    trailingBackslashes (white ++ cs) = trailingBackslashes cs := by
  induction white with
  | nil => rfl
  | cons d white ih =>
    have hd : d ≠ '\\' := by rintro rfl; exact absurd (h _ List.mem_cons_self) (by decide)
    rw [List.cons_append, ← List.nil_append (d :: _), trailingBackslashes_append_cons hd]
    exact ih fun e he => h e (List.mem_cons_of_mem _ he)

/-- A docstring of several lines ends, once it is set, in the backslashes of its trimmed last
line. -/
theorem trailingBackslashes_settled (hc : Indents c) (w : Nat) {last : List Char}
    (hlast : last ∈ (Text.pieces '\n' s.toList).2.getLast?) :
    trailingBackslashes (Docstring.settled c w s).toList = trailingBackslashes (trim last) := by
  obtain ⟨earlier, hearlier⟩ := List.getLast?_eq_some_iff.mp hlast
  obtain ⟨white, hsettled, hwhite⟩ := settled_line hc.white w last
  rw [settled_toList, hearlier, List.map_append, List.flatMap_append, ← List.append_assoc]
  simp only [List.map_cons, List.map_nil, List.flatMap_cons, List.flatMap_nil, List.append_nil]
  rw [trailingBackslashes_append_cons (by decide), hsettled,
    trailingBackslashes_white_append hwhite]

/-- A docstring that is set is one string again, unless it swallows its closing quote. -/
theorem quotable_settled_iff (hc : Indents c) (w : Nat) (h : Quotable s) :
    Quotable (Docstring.settled c w s) ↔ ¬ Docstring.Swallows s := by
  rw [quotable_iff] at h ⊢
  constructor
  · rintro hsettled ⟨last, hlast, hodd⟩
    have heven := escapeAfter_eq_odd hsettled
    rw [trailingBackslashes_settled hc w hlast, hodd] at heven
    exact absurd heven (by decide)
  · intro hswallows
    exact stands_string_iff.mp (stands_settled hc.white w (stands_string_iff.mpr h) hswallows)

/-- Setting a docstring keeps how many lines it has, the first of them, and every other one but for
the white space around it. Exactly if it does not swallow its closing quote, it is also one string
again. -/
theorem settled_of_quotable (hc : Indents c) (w : Nat) (h : Quotable s) :
    let before := Text.pieces '\n' s.toList
    let after := Text.pieces '\n' (Docstring.settled c w s).toList
    after.2.length = before.2.length ∧ after.1 = before.1 ∧
      after.2.map trim = before.2.map trim ∧
      (Quotable (Docstring.settled c w s) ↔ ¬ Docstring.Swallows s) := by
  obtain ⟨hfirst, hlater⟩ := sameLines_settled hc.white hc.ne_newline w s
  refine ⟨?_, hfirst.symm, hlater.symm, quotable_settled_iff hc w h⟩
  rw [pieces_settled hc.ne_newline, List.length_map]

/-- An escaped backslash at the end escapes nothing, and the lines move under the quote. -/
theorem settled_of_quotable_path :
    Quotable "a\n b\\\\ " ∧
      (let before := Text.pieces '\n' "a\n b\\\\ ".toList
       let after := Text.pieces '\n' (Docstring.settled ' ' 7 "a\n b\\\\ ").toList
       after.2.length = before.2.length ∧ after.1 = before.1 ∧
         after.2.map trim = before.2.map trim ∧
         (Quotable (Docstring.settled ' ' 7 "a\n b\\\\ ") ↔
           ¬ Docstring.Swallows "a\n b\\\\ ")) :=
  have hquotable : Quotable "a\n b\\\\ " := by decide
  ⟨hquotable, settled_of_quotable (.inl rfl) 7 hquotable⟩

/-- A blank that is escaped at the end of a docstring is dropped, and its backslash is left to
escape the closing quote: what was a source that is laid out already becomes one that cannot be
read. -/
theorem settled_not_quotable :
    Quotable "a\n       b\\ " ∧ ¬ Quotable (Docstring.settled ' ' 7 "a\n       b\\ ") ∧
      format {} "(def x \"a\n       b\\ \")" = .ok "(def x \"a\n       b\\\")" := by
  refine ⟨by decide, by decide, by rfl⟩

/-! ## 2. Setting twice -/

/-- How many spaces a line starts with. -/
def depth (line : List Char) : Nat :=
  (line.takeWhile (· == ' ')).length

/-- A line that is set with tabs stands, past them, as deep as it stood behind the quote. -/
theorem settled_tab (w : Nat) (h : ¬ (trim line).isEmpty = true) :
    DocLine.settled '\t' w line
      = List.replicate w '\t' ++ (List.replicate (depth line - w) ' ' ++ trim line) := by
  rw [DocLine.settled, align_of_not_blank w h, depth]

/-- The tabs in front of a line hide its spaces. -/
theorem depth_settled_tab (hw : w ≠ 0) (h : ¬ (trim line).isEmpty = true) :
    depth (DocLine.settled '\t' w line) = 0 := by
  obtain ⟨w, rfl⟩ := Nat.exists_eq_succ_of_ne_zero hw
  rw [settled_tab _ h, depth, List.replicate_succ, List.cons_append]
  rfl

theorem settled_blank (c : Char) (w : Nat) (h : (trim line).isEmpty = true) :
    DocLine.settled c w line = [] := by
  rw [DocLine.settled, DocLine.align, if_pos h]
  rfl

/-- At the margin there is nothing to indent. -/
theorem settled_zero (c : Char) (line : List Char) :
    DocLine.settled c 0 line = DocLine.settled ' ' 0 line := by
  have hindent : (DocLine.align 0 line).indent = 0 := by
    rw [DocLine.align]
    split <;> rfl
  rw [DocLine.settled, DocLine.settled, hindent]
  rfl

theorem settled_space_settled (w : Nat) (line : List Char) :
    DocLine.settled ' ' w (DocLine.settled ' ' w line) = DocLine.settled ' ' w line := by
  rw [DocLine.settled, align_settled_line, ← DocLine.settled]

/-- Setting a line a second time changes nothing, unless tabs hide how deep it stands. -/
theorem settled_settled_line_iff (hc : Indents c) (w : Nat) (line : List Char) :
    DocLine.settled c w (DocLine.settled c w line) = DocLine.settled c w line ↔
      c = ' ' ∨ w = 0 ∨ (trim line).isEmpty = true ∨ depth line ≤ w := by
  by_cases hblank : (trim line).isEmpty = true
  · have hnil : (trim []).isEmpty = true := rfl
    simp [settled_blank c w hblank, settled_blank c w hnil, hblank]
  by_cases hw : w = 0
  · subst hw
    rw [settled_zero c line, settled_zero c, settled_space_settled]
    simp
  rcases hc with rfl | rfl
  · rw [settled_space_settled]
    simp
  -- The second time no space is seen in front of the line, so that its depth is `w` and no more.
  have htrim := trim_settled (c := '\t') rfl w line
  have hagain : ¬ (trim (DocLine.settled '\t' w line)).isEmpty = true := by rwa [htrim]
  rw [settled_tab w hagain, htrim, depth_settled_tab hw hblank, settled_tab w hblank,
    List.append_cancel_left_eq, Nat.zero_sub, List.replicate_zero, List.nil_append]
  constructor
  · intro h
    have hlength := congrArg List.length h
    rw [List.length_append, List.length_replicate] at hlength
    omega
  · rintro (hspace | hzero | hempty | hdepth)
    · exact absurd hspace (by decide)
    · exact absurd hzero hw
    · exact absurd hempty hblank
    · rw [Nat.sub_eq_zero_of_le hdepth, List.replicate_zero, List.nil_append]

/-- Setting a docstring at a column twice does the same as setting it once if it is indented with
spaces, or stands at the margin, or has no line deeper than its quote; and only then. -/
theorem settled_settled_iff (hc : Indents c) (w : Nat) (s : String) :
    Docstring.settled c w (Docstring.settled c w s) = Docstring.settled c w s ↔
      c = ' ' ∨ w = 0 ∨ ∀ line ∈ (Text.pieces '\n' s.toList).2,
        (trim line).isEmpty = true ∨ depth line ≤ w := by
  have hlines : Docstring.settled c w (Docstring.settled c w s) = Docstring.settled c w s ↔
      ∀ line ∈ (Text.pieces '\n' s.toList).2,
        DocLine.settled c w (DocLine.settled c w line) = DocLine.settled c w line := by
    constructor
    · intro h line hline
      have hpieces := congrArg (fun text : String => (Text.pieces '\n' text.toList).2) h
      simp only [pieces_settled hc.ne_newline, List.map_map] at hpieces
      exact List.map_inj_left.mp hpieces line hline
    · intro h
      have hmap : (Text.pieces '\n' s.toList).2.map (DocLine.settled c w ∘ DocLine.settled c w)
          = (Text.pieces '\n' s.toList).2.map (DocLine.settled c w) := List.map_congr_left h
      rw [← String.toList_inj, settled_toList c w (Docstring.settled c w s),
        pieces_settled hc.ne_newline, settled_toList, List.map_map, hmap]
  rw [hlines]
  simp only [settled_settled_line_iff hc]
  by_cases hspace : c = ' '
  · simp [hspace]
  by_cases hw : w = 0
  · simp [hw]
  simp [hspace, hw]

/-- With tabs, a line as deep as the quote keeps its place. -/
theorem settled_settled_tab :
    Indents '\t' ∧
      (Docstring.settled '\t' 7 (Docstring.settled '\t' 7 "a\n       b\n")
          = Docstring.settled '\t' 7 "a\n       b\n" ↔
        '\t' = ' ' ∨ 7 = 0 ∨ ∀ line ∈ (Text.pieces '\n' "a\n       b\n".toList).2,
          (trim line).isEmpty = true ∨ depth line ≤ 7) :=
  ⟨.inr rfl, settled_settled_iff (.inr rfl) 7 "a\n       b\n"⟩

/-- With tabs, a line three columns deeper than its quote loses them the second time, in a
docstring and in the source it stands in. -/
theorem settled_tab_forgets :
    Docstring.settled '\t' 7 (Docstring.settled '\t' 7 "a\n          b")
        ≠ Docstring.settled '\t' 7 "a\n          b" ∧
      format { indentChar := '\t' } "(def x \"a\n          b\")"
        = .ok "(def x \"a\n\t\t\t\t\t\t\t   b\")" ∧
      format { indentChar := '\t' } "(def x \"a\n\t\t\t\t\t\t\t   b\")"
        = .ok "(def x \"a\n\t\t\t\t\t\t\tb\")" := by
  refine ⟨by decide, by rfl, by rfl⟩

end CljFormat.Layout
