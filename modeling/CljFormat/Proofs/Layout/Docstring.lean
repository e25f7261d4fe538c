/-
CljFormat.Proofs.Layout.Docstring — what setting a docstring does to its text.

A docstring that is set keeps its lines but for the white space around those after the first
(`sameLines_align`), and setting it a second time at the same column changes nothing more
(`align_align`).

It also stays one string: its lines hold no quote that ends it, and white space that is dropped
escapes nothing, with one exception. A last line such as `a\ ` ends in a backslash once its white
space is dropped, and that backslash would escape the closing quote (`Docstring.Swallows`). Any
other docstring is a string again (`escapeAfter_align`).
-/
import CljFormat.Layout.Docstring
import CljFormat.Proofs.Token.StringBody
import Mathlib.Data.List.DropRight

namespace CljFormat.Layout

open Text (isWhiteSpace)

/-! ## 1. Trimming -/

/-- A line is its trimmed text between white space. -/
theorem eq_trim (line : List Char) :
    ∃ before after, line = before ++ trim line ++ after ∧
      (∀ c ∈ before, isWhiteSpace c = true) ∧ ∀ c ∈ after, isWhiteSpace c = true := by
  have hsplit : (line.dropWhile isWhiteSpace).reverse
      = (line.dropWhile isWhiteSpace).reverse.takeWhile isWhiteSpace ++ (trim line).reverse := by
    rw [trim, List.reverse_reverse, List.takeWhile_append_dropWhile]
  have hrest := congrArg List.reverse hsplit
  rw [List.reverse_reverse, List.reverse_append, List.reverse_reverse] at hrest
  refine ⟨line.takeWhile isWhiteSpace,
    ((line.dropWhile isWhiteSpace).reverse.takeWhile isWhiteSpace).reverse, ?_,
    fun c hc => List.mem_takeWhile_imp hc,
    fun c hc => List.mem_takeWhile_imp (List.mem_reverse.mp hc)⟩
  rw [List.append_assoc, ← hrest, List.takeWhile_append_dropWhile]

theorem trim_white_append {white : List Char} (h : ∀ c ∈ white, isWhiteSpace c = true)
    (line : List Char) : trim (white ++ line) = trim line := by
  rw [trim, trim, List.dropWhile_append_of_pos h]

/-- No white space stands at the start of a trimmed line. -/
theorem head_trim (line : List Char) : ∀ c ∈ (trim line).head?, isWhiteSpace c = false := by
  intro c hc
  obtain ⟨cs, hcs⟩ : trim line <+: line.dropWhile isWhiteSpace := by
    have hsuffix := List.dropWhile_suffix (l := (line.dropWhile isWhiteSpace).reverse) isWhiteSpace
    rw [← List.reverse_prefix, List.reverse_reverse] at hsuffix
    exact hsuffix
  have hfirst : (line.dropWhile isWhiteSpace).head? = some c := by
    rw [← hcs, List.head?_append, hc, Option.some_or]
  have hnot := List.head?_dropWhile_not isWhiteSpace line
  rwa [hfirst] at hnot

theorem trim_trim (line : List Char) : trim (trim line) = trim line := by
  have hfront : (trim line).dropWhile isWhiteSpace = trim line := by
    refine List.dropWhile_eq_self_iff.mpr fun hpos => ?_
    rw [head_trim line _ (List.head?_eq_getElem? ▸ List.getElem?_eq_getElem hpos)]
    exact Bool.false_ne_true
  have hback : (trim line).reverse.dropWhile isWhiteSpace = (trim line).reverse := by
    rw [trim, List.reverse_reverse, List.dropWhile_idempotent]
  rw [trim, hfront, hback, List.reverse_reverse]

/-! ## 2. Lines -/

/-- Line breaks between the lines of a text give the text back. -/
theorem join_pieces (cs : List Char) :
    (Text.pieces '\n' cs).1 ++ (Text.pieces '\n' cs).2.flatMap ('\n' :: ·) = cs := by
  induction cs with
  | nil => rfl
  | cons c cs ih =>
    rw [Text.pieces]
    dsimp only
    split
    · next hc => simpa [hc] using ih
    · simpa using ih

/-- No line has a line break in it. -/
theorem not_mem_pieces (cs : List Char) :
    '\n' ∉ (Text.pieces '\n' cs).1 ∧ ∀ line ∈ (Text.pieces '\n' cs).2, '\n' ∉ line := by
  induction cs with
  | nil => simp [Text.pieces]
  | cons c cs ih =>
    rw [Text.pieces]
    dsimp only
    split
    · simpa using ih
    · next hc => exact ⟨by simpa using ⟨fun h => hc h.symm, ih.1⟩, ih.2⟩

/-- The lines of a text that lines were put together to. -/
theorem pieces_join {first : List Char} {rest : List (List Char)} (hfirst : '\n' ∉ first)
    (hrest : ∀ line ∈ rest, '\n' ∉ line) :
    Text.pieces '\n' (first ++ rest.flatMap ('\n' :: ·)) = (first, rest) := by
  induction first with
  | cons c first ih =>
    rw [List.mem_cons, not_or] at hfirst
    rw [List.cons_append, Text.pieces, ih hfirst.2]
    exact if_neg fun h => hfirst.1 h.symm
  | nil =>
    induction rest with
    | nil => rfl
    | cons line rest ih =>
      have hline := hrest line List.mem_cons_self
      have hlater := ih fun l hl => hrest l (List.mem_cons_of_mem _ hl)
      have hhead : Text.pieces '\n' (line ++ rest.flatMap ('\n' :: ·)) = (line, rest) := by
        clear ih hrest
        induction line with
        | nil => simpa using hlater
        | cons c line ih =>
          rw [List.mem_cons, not_or] at hline
          rw [List.cons_append, Text.pieces, ih hline.2]
          exact if_neg fun h => hline.1 h.symm
      rw [List.flatMap_cons, List.nil_append, List.cons_append, Text.pieces, hhead]
      exact if_pos rfl

/-- Two texts have the same lines, but for the white space around those after the first. -/
def Docstring.SameLines (x y : String) : Prop :=
  (Text.pieces '\n' x.toList).1 = (Text.pieces '\n' y.toList).1 ∧
    (Text.pieces '\n' x.toList).2.map trim = (Text.pieces '\n' y.toList).2.map trim

/-! ## 3. Docstrings that are set -/

/-- The text of a docstring that is set at column `w` and indented with `c`. -/
def Docstring.settled (c : Char) (w : Nat) (text : String) : String :=
  String.ofList ((Docstring.align w text).chars c)

/-- The characters of a line that is set at column `w` and indented with `c`. -/
def DocLine.settled (c : Char) (w : Nat) (line : List Char) : List Char :=
  List.replicate (DocLine.align w line).indent c ++ (DocLine.align w line).text

theorem settled_toList (c : Char) (w : Nat) (text : String) :
    (Docstring.settled c w text).toList
      = (Text.pieces '\n' text.toList).1 ++
        ((Text.pieces '\n' text.toList).2.map (DocLine.settled c w)).flatMap ('\n' :: ·) := by
  simp [Docstring.settled, Docstring.align, Docstring.chars, DocLine.settled, List.flatMap_map]

/-- Where a line that is not blank is set. -/
theorem align_of_not_blank (w : Nat) {line : List Char} (h : ¬ (trim line).isEmpty = true) :
    DocLine.align w line
      = ⟨w, List.replicate ((line.takeWhile (· == ' ')).length - w) ' ' ++ trim line⟩ := by
  rw [DocLine.align, if_neg h]

/-- A line that is set is its trimmed text behind white space. -/
theorem settled_line {c : Char} (hc : isWhiteSpace c = true) (w : Nat) (line : List Char) :
    ∃ white, DocLine.settled c w line = white ++ trim line ∧
      ∀ d ∈ white, isWhiteSpace d = true := by
  by_cases hempty : (trim line).isEmpty = true
  · refine ⟨[], ?_, by simp⟩
    simp [DocLine.settled, DocLine.align, List.isEmpty_iff.mp hempty]
  · refine ⟨List.replicate w c ++
      List.replicate ((line.takeWhile (· == ' ')).length - w) ' ', ?_, ?_⟩
    · simp [DocLine.settled, align_of_not_blank w hempty]
    · intro d hd
      rcases List.mem_append.mp hd with hd | hd
      · exact (List.mem_replicate.mp hd).2 ▸ hc
      · exact (List.mem_replicate.mp hd).2 ▸ rfl

theorem trim_settled {c : Char} (hc : isWhiteSpace c = true) (w : Nat) (line : List Char) :
    trim (DocLine.settled c w line) = trim line := by
  obtain ⟨white, hline, hwhite⟩ := settled_line hc w line
  rw [hline, trim_white_append hwhite, trim_trim]

theorem not_mem_settled {c : Char} (hc : c ≠ '\n') (w : Nat) {line : List Char}
    (h : '\n' ∉ line) : '\n' ∉ DocLine.settled c w line := by
  obtain ⟨before, after, hline, -, -⟩ := eq_trim line
  have htrim : '\n' ∉ trim line := by
    intro hmem
    rw [hline] at h
    simp [hmem] at h
  rw [DocLine.settled, DocLine.align]
  split
  · simp
  · simp [htrim, List.mem_replicate, hc.symm]

/-- The lines of a docstring that is set. -/
theorem pieces_settled {c : Char} (hc : c ≠ '\n') (w : Nat) (text : String) :
    Text.pieces '\n' (Docstring.settled c w text).toList
      = ((Text.pieces '\n' text.toList).1,
        (Text.pieces '\n' text.toList).2.map (DocLine.settled c w)) := by
  obtain ⟨hfirst, hrest⟩ := not_mem_pieces text.toList
  rw [settled_toList, pieces_join hfirst]
  intro line hline
  obtain ⟨l, hl, rfl⟩ := List.mem_map.mp hline
  exact not_mem_settled hc w (hrest l hl)

/-- Setting a docstring keeps its lines, white space apart. -/
theorem sameLines_settled {c : Char} (hwhite : isWhiteSpace c = true) (hc : c ≠ '\n') (w : Nat)
    (text : String) : Docstring.SameLines text (Docstring.settled c w text) := by
  rw [Docstring.SameLines, pieces_settled hc]
  refine ⟨rfl, ?_⟩
  rw [List.map_map]
  exact List.map_congr_left fun line _ => (trim_settled hwhite w line).symm

/-- A line that is set with spaces is set already. -/
theorem align_settled_line (w : Nat) (line : List Char) :
    DocLine.align w (DocLine.settled ' ' w line) = DocLine.align w line := by
  have htrim := trim_settled (c := ' ') rfl w line
  by_cases hempty : (trim line).isEmpty = true
  · simp [DocLine.align, htrim, hempty]
  · have hdepth : ((DocLine.settled ' ' w line).takeWhile (· == ' ')).length
        = w + ((line.takeWhile (· == ' ')).length - w) := by
      have hstop : ∀ c ∈ (trim line).head?, (c == ' ') = false := by
        intro c hc
        have hwhite := head_trim line c hc
        cases hspace : c == ' ' with
        | false => rfl
        | true => rw [eq_of_beq hspace] at hwhite; exact absurd hwhite (by decide)
      have hnil : (trim line).takeWhile (· == ' ') = [] := by
        cases h : trim line with
        | nil => rfl
        | cons c cs => simp [hstop c (by rw [h]; rfl)]
      rw [DocLine.settled, align_of_not_blank w hempty, ← List.append_assoc,
         List.takeWhile_append_of_pos (by simp [List.mem_replicate]), hnil]
      simp
    have hsub : w + ((line.takeWhile (· == ' ')).length - w) - w
        = (line.takeWhile (· == ' ')).length - w := by omega
    have hagain : ¬ (trim (DocLine.settled ' ' w line)).isEmpty = true := by rwa [htrim]
    rw [align_of_not_blank w hagain, htrim, hdepth, hsub, align_of_not_blank w hempty]

/-- A docstring that is set with spaces is set already. -/
theorem align_settled (w : Nat) (text : String) :
    Docstring.align w (Docstring.settled ' ' w text) = Docstring.align w text := by
  rw [Docstring.align, pieces_settled (by decide), Docstring.align]
  simp only [List.map_map, Docstring.mk.injEq, true_and]
  exact List.map_congr_left fun line _ => align_settled_line w line

/-! ## 4. Docstrings as strings -/

/-- How many backslashes stand at the end of a line. -/
def trailingBackslashes (line : List Char) : Nat :=
  (line.reverse.takeWhile (· == '\\')).length

/-- A docstring of several lines whose last line, without its white space, ends in a backslash that
escapes what follows. -/
def Docstring.Swallows (text : String) : Prop :=
  ∃ last ∈ (Text.pieces '\n' text.toList).2.getLast?, trailingBackslashes (trim last) % 2 = 1

instance (text : String) : Decidable (Docstring.Swallows text) :=
  inferInstanceAs (Decidable
    (∃ last ∈ (Text.pieces '\n' text.toList).2.getLast?, trailingBackslashes (trim last) % 2 = 1))

theorem escapeAfter_cons_plain {c : Char} {cs : List Char} (escaped : Bool) (hquote : c ≠ '"')
    (hback : c ≠ '\\') : escapeAfter escaped (c :: cs) = escapeAfter false cs := by
  rw [escapeAfter, if_neg (fun h => hquote h.1), beq_false_of_ne hback, Bool.false_and]

theorem escapeAfter_white {white : List Char} (h : ∀ c ∈ white, isWhiteSpace c = true)
    (cs : List Char) : escapeAfter false (white ++ cs) = escapeAfter false cs := by
  induction white with
  | nil => rfl
  | cons c white ih =>
    have hc := h c List.mem_cons_self
    have hquote : c ≠ '"' := by rintro rfl; exact absurd hc (by decide)
    have hback : c ≠ '\\' := by rintro rfl; exact absurd hc (by decide)
    rw [List.cons_append, escapeAfter_cons_plain false hquote hback]
    exact ih fun d hd => h d (List.mem_cons_of_mem _ hd)

/-- What follows a line is escaped if the line ends in an odd number of backslashes. -/
theorem escapeAfter_eq_odd {cs : List Char} {escaped : Bool}
    (h : escapeAfter false cs = some escaped) :
    escaped = (trailingBackslashes cs % 2 == 1) := by
  rw [← List.reverse_reverse cs] at h ⊢
  generalize cs.reverse = ds at h ⊢
  induction ds generalizing escaped with
  | nil =>
    obtain rfl : false = escaped := by simpa using h
    rfl
  | cons c ds ih =>
    rw [List.reverse_cons, escapeAfter_append] at h
    obtain ⟨e, he, hlast⟩ := Option.bind_eq_some_iff.mp h
    have hcount := ih he
    rw [escapeAfter] at hlast
    split at hlast
    · simp at hlast
    · have hescaped : (c == '\\' && !e) = escaped := by simpa using hlast
      subst hescaped hcount
      simp only [trailingBackslashes, List.reverse_reverse, List.takeWhile_cons]
      cases c == '\\' with
      | false => rfl
      | true =>
        simp only [Bool.true_and, if_true, List.length_cons]
        rcases Nat.mod_two_eq_zero_or_one (ds.takeWhile (· == '\\')).length with hmod | hmod
        · simp [hmod, Nat.add_mod]
        · simp [hmod, Nat.add_mod]

/-- A line that is set holds no quote that ends a string if the line held none, and escapes what
follows only if the trimmed line does. -/
theorem escapeAfter_settled {c : Char} (hc : isWhiteSpace c = true) (w : Nat) {line : List Char}
    {e : Bool} (h : escapeAfter false line = some e) :
    escapeAfter false (DocLine.settled c w line)
      = some (trailingBackslashes (trim line) % 2 == 1) := by
  obtain ⟨before, after, hline, hbefore, -⟩ := eq_trim line
  obtain ⟨white, hsettled, hwhite⟩ := settled_line hc w line
  rw [hline, List.append_assoc, escapeAfter_white hbefore, escapeAfter_append] at h
  obtain ⟨e', he', -⟩ := Option.bind_eq_some_iff.mp h
  rw [hsettled, escapeAfter_white hwhite, he', escapeAfter_eq_odd he']

theorem escapeAfter_newline (cs ds : List Char) :
    escapeAfter false (cs ++ '\n' :: ds)
      = (escapeAfter false cs).bind fun _ => escapeAfter false ds := by
  have hreset : ∀ e, escapeAfter e ('\n' :: ds) = escapeAfter false ds :=
    fun e => escapeAfter_cons_plain e (by decide) (by decide)
  rw [escapeAfter_append]
  simp only [hreset]

/-- Lines that are set are one string if the lines were, unless the last one swallows the quote. -/
theorem escapeAfter_lines {c : Char} (hc : isWhiteSpace c = true) (w : Nat)
    {first first' : List Char}
    {rest : List (List Char)}
    (h : escapeAfter false (first ++ rest.flatMap ('\n' :: ·)) = some false)
    (hfirst : ∀ e, escapeAfter false first = some e → ∃ e', escapeAfter false first' = some e')
    (hnil : rest = [] → escapeAfter false first' = some false)
    (hlast : ∀ last ∈ rest.getLast?, trailingBackslashes (trim last) % 2 ≠ 1) :
    escapeAfter false (first' ++ (rest.map (DocLine.settled c w)).flatMap ('\n' :: ·))
      = some false := by
  induction rest generalizing first first' with
  | nil => simpa using hnil rfl
  | cons line rest ih =>
    rw [List.flatMap_cons, List.cons_append, escapeAfter_newline] at h
    obtain ⟨e, he, hrest⟩ := Option.bind_eq_some_iff.mp h
    obtain ⟨e', he'⟩ := hfirst e he
    rw [List.map_cons, List.flatMap_cons, List.cons_append, escapeAfter_newline, he',
      Option.bind_some]
    refine ih hrest (fun e he => ⟨_, escapeAfter_settled hc w he⟩) ?_ ?_
    · rintro rfl
      have hline : escapeAfter false line = some false := by simpa using hrest
      rw [escapeAfter_settled hc w hline]
      simpa using hlast line rfl
    · intro last hmem
      refine hlast last ?_
      rw [List.getLast?_cons, Option.mem_def.mp hmem]
      rfl

/-- A docstring that is set is a string again. -/
theorem stands_settled {c : Char} (hc : isWhiteSpace c = true) (w : Nat) {text : String}
    (h : Stands .string ('"' :: text.toList ++ ['"'])) (hswallows : ¬ Docstring.Swallows text) :
    Stands .string ('"' :: (Docstring.settled c w text).toList ++ ['"']) := by
  rw [stands_string_iff] at h ⊢
  rw [settled_toList]
  have hjoin := h
  rw [← join_pieces text.toList] at hjoin
  refine escapeAfter_lines hc w hjoin (fun e he => ⟨e, he⟩) ?_ ?_
  · intro hnil
    simpa [hnil] using hjoin
  · intro last hlast hodd
    exact hswallows ⟨last, hlast, hodd⟩

end CljFormat.Layout
