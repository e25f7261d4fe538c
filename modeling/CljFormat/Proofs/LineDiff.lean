/-
CljFormat.Proofs.LineDiff — what a difference of two texts says.

A difference is a sequence of records, one on each line, and a record names its side and the number
of its line. A line that is shown has no line break in it, so the first line of a difference is its
first record whatever the compared texts hold, and its mark and number say which line of which text
it shows (`diffLine_append_inj`). The line of the new text that has a certain number can therefore
be told from the old text and the difference: it is shown, or it is empty, or it is the old line.

So the difference determines the lines of the new text, the empty lines at its end apart
(`lines_of_lineDiff`), and it shows nothing exactly if these lines are the old ones
(`lineDiff_eq_some`).
-/
import CljFormat.LineDiff
import CljFormat.Proofs.Layout.Docstring
import CljFormat.Proofs.Token.Join
import Mathlib.Data.List.DropRight
import Mathlib.Data.List.Infix
import Std.Data.String.ToNat

namespace CljFormat

/-! ## 1. Lines up to the empty ones at the end -/

theorem rdropWhile_cons {α : Type} (p : α → Bool) (x : α) (xs : List α) :
    (x :: xs).rdropWhile p
      = if p x = true ∧ xs.rdropWhile p = [] then [] else x :: xs.rdropWhile p := by
  by_cases hxs : xs.rdropWhile p = []
  · have hdrop : xs.reverse.dropWhile p = [] := List.reverse_eq_nil_iff.mp hxs
    by_cases hx : p x = true <;> simp [List.rdropWhile, List.dropWhile_append, hdrop, hx]
  · have hdrop : xs.reverse.dropWhile p ≠ [] := fun h => hxs (List.reverse_eq_nil_iff.mpr h)
    rw [if_neg fun h => hxs h.2]
    simp [List.rdropWhile, List.dropWhile_append, hdrop]

theorem getD_succ (ls : List String) (i : Nat) : ls.getD (i + 1) "" = ls.tail.getD i "" := by
  cases ls <;> rfl

/-- Two texts have the same lines up to the empty ones at the end exactly if they have the same line
at every place, a missing line counting as empty. -/
theorem rdropWhile_isEmpty_eq_iff {as bs : List String} :
    as.rdropWhile String.isEmpty = bs.rdropWhile String.isEmpty ↔
      ∀ i, as.getD i "" = bs.getD i "" := by
  have hnil : ∀ {ls : List String}, (∀ i, ls.getD i "" = "") ↔
      ls.rdropWhile String.isEmpty = [] := by
    intro ls
    rw [List.rdropWhile_eq_nil_iff]
    constructor
    · intro h l hl
      obtain ⟨i, hi, rfl⟩ := List.getElem_of_mem hl
      simpa [hi] using h i
    · intro h i
      rw [List.getD_eq_getElem?_getD]
      cases hi : ls[i]? with
      | none => rfl
      | some l => simpa using h l (List.mem_of_getElem? hi)
  induction as generalizing bs with
  | nil =>
    rw [List.rdropWhile_nil, eq_comm, ← hnil]
    simp only [List.getD_nil, eq_comm]
  | cons a as ih =>
    cases bs with
    | nil =>
      rw [List.rdropWhile_nil, ← hnil]
      simp only [List.getD_nil]
    | cons b bs =>
      have hplaces : (∀ i, (a :: as).getD i "" = (b :: bs).getD i "") ↔
          a = b ∧ ∀ i, as.getD i "" = bs.getD i "" :=
        ⟨fun h => ⟨h 0, fun i => h (i + 1)⟩, fun ⟨hfirst, hrest⟩ i => by
          cases i with
          | zero => exact hfirst
          | succ i => exact hrest i⟩
      have hrest : as.rdropWhile String.isEmpty = bs.rdropWhile String.isEmpty ↔ _ := ih
      rw [hplaces, ← hrest, rdropWhile_cons, rdropWhile_cons]
      constructor
      · intro h
        split at h <;> split at h
        · next ha hb =>
          simp only [String.isEmpty_iff] at ha hb
          exact ⟨ha.1.trans hb.1.symm, ha.2.trans hb.2.symm⟩
        · cases h
        · cases h
        · exact List.cons.inj h
      · rintro ⟨rfl, hrest⟩
        rw [hrest]

namespace Text

theorem newline_not_mem_dropReturn {line : List Char} (h : '\n' ∉ line) :
    '\n' ∉ dropReturn line := by
  unfold dropReturn
  split
  · exact fun hmem => h (List.mem_of_mem_dropLast hmem)
  · exact h

/-- No line has a line break in it. -/
theorem newline_not_mem_lines (s : String) : ∀ line ∈ lines s, '\n' ∉ line.toList := by
  obtain ⟨hfirst, hrest⟩ := Layout.not_mem_pieces s.toList
  have hall : ∀ line ∈ (pieces '\n' s.toList).1 :: (pieces '\n' s.toList).2, '\n' ∉ line :=
    List.forall_mem_cons.mpr ⟨hfirst, hrest⟩
  have hended : ∀ line ∈ (((pieces '\n' s.toList).1 :: (pieces '\n' s.toList).2).dropLast.map
      dropReturn), '\n' ∉ line := by
    intro line hline
    obtain ⟨whole, hwhole, rfl⟩ := List.mem_map.mp hline
    exact newline_not_mem_dropReturn (hall whole (List.mem_of_mem_dropLast hwhole))
  have hlast :
      '\n' ∉ (((pieces '\n' s.toList).1 :: (pieces '\n' s.toList).2).getLast?.getD []) := by
    rw [List.getLast?_eq_some_getLast (List.cons_ne_nil _ _), Option.getD_some]
    exact hall _ (List.getLast_mem _)
  intro line hline
  obtain ⟨chars, hchars, rfl⟩ := List.mem_map.mp hline
  rw [String.toList_ofList]
  split at hchars
  · exact hended chars hchars
  · rcases List.mem_append.mp hchars with hchars | hchars
    · exact hended chars hchars
    · exact List.mem_singleton.mp hchars ▸ hlast

/-- A number that is followed by a space can be read back. -/
theorem alignRight_append_inj {width n m : Nat} {x y : List Char}
    (h : (alignRight width n).toList ++ ' ' :: x = (alignRight width m).toList ++ ' ' :: y) :
    n = m ∧ x = y := by
  have hdigit : ∀ k : Nat, ∀ c ∈ k.repr.toList, c.isDigit = true := by
    intro k c hc
    rw [Nat.toList_repr] at hc
    exact Nat.isDigit_of_mem_toDigits (by decide) (by decide) hc
  -- The padding goes first, then the digits end at the space.
  have hread : ∀ (k : Nat) (z : List Char),
      ((alignRight width k).toList ++ ' ' :: z).dropWhile (· == ' ')
        = k.repr.toList ++ ' ' :: z := by
    intro k z
    have hpadding : ∀ c ∈ List.replicate (width - k.repr.toList.length) ' ', (c == ' ') = true :=
      fun c hc => by simp [List.eq_of_mem_replicate hc]
    have halign : (alignRight width k).toList
        = List.replicate (width - k.repr.toList.length) ' ' ++ k.repr.toList := by
      rw [alignRight, String.toList_ofList]
      rfl
    rw [halign, List.append_assoc, List.dropWhile_append_of_pos hpadding]
    cases hdigits : k.repr.toList with
    | nil => exact absurd hdigits (by rw [Nat.toList_repr]; exact Nat.toDigits_ne_nil)
    | cons c cs =>
      have hc : (c == ' ') = false := by
        rw [beq_eq_false_iff_ne]
        rintro rfl
        exact absurd (hdigit k ' ' (by simp [hdigits])) (by decide)
      rw [List.cons_append, List.dropWhile_cons_of_neg (by simp [hc])]
  have hsplit := congrArg (List.dropWhile (· == ' ')) h
  rw [hread, hread] at hsplit
  have hrepr : n.repr.toList = m.repr.toList := by
    have htake := congrArg (List.takeWhile Char.isDigit) hsplit
    rw [takeWhile_append_cons (by decide), takeWhile_append_cons (by decide)] at htake
    rwa [List.takeWhile_eq_self_iff.mpr (hdigit n), List.takeWhile_eq_self_iff.mpr (hdigit m)]
      at htake
  rw [hrepr, List.append_right_inj, List.cons_inj_right] at hsplit
  exact ⟨Nat.repr_inj.mp (String.toList_inj.mp hrepr), hsplit⟩

end Text

/-! ## 2. Records -/

/-- A text starts with a record of the side `mark` of the line `number`. -/
def OpensWith (mark : Char) (number : Nat) (cs : List Char) : Prop :=
  ∃ rest, cs = mark :: ((Text.alignRight 4 number).toList ++ ' ' :: rest)

theorem OpensWith.unique {mark mark' : Char} {n m : Nat} {cs : List Char}
    (h : OpensWith mark n cs) (h' : OpensWith mark' m cs) : mark = mark' ∧ n = m := by
  obtain ⟨rest, rfl⟩ := h
  obtain ⟨rest', heq⟩ := h'
  obtain ⟨hmark, hrest⟩ := List.cons.inj heq
  exact ⟨hmark, (Text.alignRight_append_inj hrest).1⟩

variable {mark : String} {c c' : Char} {n : Nat} {line line' : String} {r r' : List Char}

@[simp] theorem diffLine_empty (mark : String) (n : Nat) : diffLine mark n "" = "" := rfl

theorem diffLine_toList (hmark : mark.toList = [c]) (h : line ≠ "") (n : Nat) :
    (diffLine mark n line).toList = c :: ((Text.alignRight 4 n).toList ++
      ' ' :: '|' :: ' ' :: (line.toList ++ ['\n'])) := by
  have hline : line.isEmpty = false := by simpa [String.isEmpty_iff] using h
  rw [diffLine, if_neg (by simp [hline])]
  simp [hmark]

theorem opensWith_diffLine (hmark : mark.toList = [c]) (h : line ≠ "") (n : Nat)
    (r : List Char) : OpensWith c n ((diffLine mark n line).toList ++ r) := by
  rw [diffLine_toList hmark h]
  exact ⟨'|' :: ' ' :: (line.toList ++ '\n' :: r), by simp⟩

/-- What a record shows, and what comes behind it, can be told from the text. -/
theorem diffLine_append_inj (hmark : mark.toList = [c]) (hline : '\n' ∉ line.toList)
    (hline' : '\n' ∉ line'.toList) (hr : ¬ OpensWith c n r) (hr' : ¬ OpensWith c n r')
    (h : (diffLine mark n line).toList ++ r = (diffLine mark n line').toList ++ r') :
    line = line' ∧ r = r' := by
  by_cases hempty : line = ""
  · subst hempty
    by_cases hempty' : line' = ""
    · subst hempty'
      exact ⟨rfl, by simpa using h⟩
    · rw [diffLine_empty, String.toList_empty, List.nil_append] at h
      exact absurd (h ▸ opensWith_diffLine hmark hempty' n r') hr
  · by_cases hempty' : line' = ""
    · subst hempty'
      rw [diffLine_empty, String.toList_empty, List.nil_append] at h
      exact absurd (h ▸ opensWith_diffLine hmark hempty n r) hr'
    · rw [diffLine_toList hmark hempty, diffLine_toList hmark hempty'] at h
      have htail : line.toList ++ '\n' :: r = line'.toList ++ '\n' :: r' := by simpa using h
      have hplain : ∀ l : List Char, '\n' ∉ l → ∀ d ∈ l, (d != '\n') = true := by
        intro l hl d hd
        simpa using fun heq : d = '\n' => hl (heq ▸ hd)
      have hsame : line.toList = line'.toList := by
        have htake := congrArg (List.takeWhile (· != '\n')) htail
        rw [takeWhile_append_cons (by decide), takeWhile_append_cons (by decide)] at htake
        rwa [List.takeWhile_eq_self_iff.mpr (hplain _ hline),
          List.takeWhile_eq_self_iff.mpr (hplain _ hline')] at htake
      rw [hsame, List.append_right_inj, List.cons_inj_right] at htail
      exact ⟨String.toList_inj.mp hsame, htail⟩

/-! ## 3. Differences -/

/-- What a difference shows of two lines with the same number. -/
def diffAt (number : Nat) (a b : String) : String :=
  diffLine "-" number (if a = b then "" else a) ++ diffLine "+" number (if a = b then "" else b)

theorem diffAt_eq_empty_iff {a b : String} : diffAt n a b = "" ↔ a = b := by
  have hshown : ∀ {mark c}, mark.toList = [c] → ∀ l, diffLine mark n l = "" → l = "" := by
    intro mark c hmark l hl
    by_contra hne
    have hchars := diffLine_toList hmark hne n
    rw [hl] at hchars
    cases hchars
  constructor
  · intro h
    rw [diffAt, String.append_eq_empty_iff] at h
    by_contra hne
    rw [if_neg hne, if_neg hne] at h
    exact hne ((hshown rfl a h.1).trans (hshown rfl b h.2).symm)
  · rintro rfl
    simp [diffAt]

/-- What a difference shows of two lines tells the second from the first. -/
theorem diffAt_append_inj {a b b' : String} {r r' : String} (ha : '\n' ∉ a.toList)
    (hb : '\n' ∉ b.toList) (hb' : '\n' ∉ b'.toList) (hr : ∀ mark, ¬ OpensWith mark n r.toList)
    (hlater : ∀ mark, ¬ OpensWith mark n r'.toList)
    (h : diffAt n a b ++ r = diffAt n a b' ++ r') :
    b = b' ∧ r = r' := by
  have hplain : ∀ {p : Prop} [Decidable p] {l : String}, '\n' ∉ l.toList →
      '\n' ∉ (if p then "" else l).toList := by
    intro p _ l hl
    split
    · simp
    · exact hl
  -- The record of the other side is no record of this one.
  have hother : ∀ {l : String} {r : String}, (∀ mark, ¬ OpensWith mark n r.toList) →
      ¬ OpensWith '-' n ((diffLine "+" n l).toList ++ r.toList) := by
    intro l r hr hopens
    by_cases hl : l = ""
    · subst hl
      exact hr '-' (by simpa using hopens)
    · exact absurd ((opensWith_diffLine rfl hl n _).unique hopens).1 (by decide)
  have hchars := congrArg String.toList h
  simp only [diffAt, String.toList_append, List.append_assoc] at hchars
  obtain ⟨hold, hchars⟩ := diffLine_append_inj rfl (hplain ha) (hplain ha) (hother hr)
    (hother hlater) hchars
  obtain ⟨hnew, hrest⟩ := diffLine_append_inj rfl (hplain hb) (hplain hb') (hr '+') (hlater '+')
    hchars
  refine ⟨?_, String.toList_inj.mp hrest⟩
  -- If only one of the lines is the old one, nothing is shown of either side.
  by_cases hab : a = b
  · by_cases hab' : a = b'
    · exact hab.symm.trans hab'
    · rw [if_pos hab, if_neg hab'] at hold hnew
      exact absurd (hold.symm.trans hnew) hab'
  · by_cases hab' : a = b'
    · rw [if_neg hab, if_pos hab'] at hold hnew
      exact absurd (hold.trans hnew.symm) hab
    · rwa [if_neg hab, if_neg hab'] at hnew

/-- A difference shows one line after the other, a missing line counting as empty. -/
theorem diffLines_eq (n : Nat) (before after : List String) :
    diffLines n before after
      = diffAt n (before.headD "") (after.headD "") ++
          diffLines (n + 1) before.tail after.tail := by
  have hempty : ∀ a : String, (if a = "" then "" else a) = a := by
    intro a
    split <;> simp_all
  cases before with
  | nil =>
    cases after with
    | nil => simp [diffLines, diffAt]
    | cons b after => simp [diffLines, diffAt, eq_comm, hempty]
  | cons a before =>
    cases after with
    | nil => simp [diffLines, diffAt, hempty]
    | cons b after =>
      rw [diffLines]
      by_cases hab : a = b <;> simp [diffAt, hab]

theorem le_of_opensWith_append {m : Nat} {later : String} (hmark : mark.toList = [c'])
    (hlater : OpensWith c m later.toList → n ≤ m)
    (h : OpensWith c m (diffLine mark n line ++ later).toList) : n ≤ m := by
  by_cases hline : line = ""
  · subst hline
    exact hlater (by simpa using h)
  · rw [String.toList_append] at h
    exact ((opensWith_diffLine hmark hline n _).unique h).2.le

/-- A difference opens with no earlier line than its first. -/
theorem le_of_opensWith {before after : List String} {m : Nat}
    (h : OpensWith c m (diffLines n before after).toList) : n ≤ m := by
  fun_induction diffLines n before after with
  | case1 n =>
    obtain ⟨rest, hrest⟩ := h
    cases hrest
  | case2 n a before ih =>
    exact le_of_opensWith_append rfl (fun h => Nat.le_of_succ_le (ih h)) h
  | case3 n b after ih =>
    exact le_of_opensWith_append rfl (fun h => Nat.le_of_succ_le (ih h)) h
  | case4 n a before b after ih =>
    split at h
    · exact Nat.le_of_succ_le (ih (by simpa using h))
    · rw [String.append_assoc] at h
      exact le_of_opensWith_append rfl
        (le_of_opensWith_append rfl fun h => Nat.le_of_succ_le (ih h)) h

/-- Texts of lines, none of which has a line break in it. -/
def Unbroken (ls : List String) : Prop :=
  ∀ l ∈ ls, '\n' ∉ l.toList

theorem Unbroken.head {ls : List String} (h : Unbroken ls) : '\n' ∉ (ls.headD "").toList := by
  cases ls with
  | nil => simp
  | cons l ls => exact h l List.mem_cons_self

theorem Unbroken.tail {ls : List String} (h : Unbroken ls) : Unbroken ls.tail :=
  fun l hl => h l (List.mem_of_mem_tail hl)

/-- A difference tells the first line of the new text, and it is followed by the difference of the
lines behind. -/
theorem diffLines_inj {before after after' : List String} (hbefore : Unbroken before)
    (hafter : Unbroken after) (hafter' : Unbroken after')
    (h : diffLines n before after = diffLines n before after') :
    after.headD "" = after'.headD "" ∧
      diffLines (n + 1) before.tail after.tail = diffLines (n + 1) before.tail after'.tail := by
  have hlater : ∀ (after : List String) (mark : Char),
      ¬ OpensWith mark n (diffLines (n + 1) before.tail after).toList :=
    fun after mark hopens => Nat.not_succ_le_self n (le_of_opensWith hopens)
  rw [diffLines_eq n before after, diffLines_eq n before after'] at h
  exact diffAt_append_inj hbefore.head hafter.head hafter'.head (hlater _) (hlater _) h

/-- The lines of the new text can be told from the old ones and the difference. -/
theorem getD_eq_of_diffLines {before after after' : List String} (hbefore : Unbroken before)
    (hafter : Unbroken after) (hafter' : Unbroken after')
    (h : diffLines n before after = diffLines n before after') (i : Nat) :
    after.getD i "" = after'.getD i "" := by
  induction i generalizing n before after after' with
  | zero =>
    obtain ⟨hfirst, -⟩ := diffLines_inj hbefore hafter hafter' h
    rwa [← List.headD_eq_getD, ← List.headD_eq_getD]
  | succ i ih =>
    obtain ⟨-, hrest⟩ := diffLines_inj hbefore hafter hafter' h
    rw [getD_succ, getD_succ]
    exact ih hbefore.tail hafter.tail hafter'.tail hrest

/-- A difference is empty exactly if it compares the same lines. -/
theorem diffLines_eq_empty_iff {before after : List String} :
    diffLines n before after = "" ↔ ∀ i, before.getD i "" = after.getD i "" := by
  constructor
  · intro h i
    induction i generalizing n before after with
    | zero =>
      rw [diffLines_eq, String.append_eq_empty_iff, diffAt_eq_empty_iff] at h
      rw [← List.headD_eq_getD, ← List.headD_eq_getD]
      exact h.1
    | succ i ih =>
      rw [diffLines_eq, String.append_eq_empty_iff] at h
      rw [getD_succ, getD_succ]
      exact ih h.2
  · intro h
    fun_induction diffLines n before after with
    | case1 n => rfl
    | case2 n a before ih =>
      obtain rfl : a = "" := h 0
      exact ih fun i => by simpa using h (i + 1)
    | case3 n b after ih =>
      obtain rfl : "" = b := h 0
      exact ih fun i => by simpa using h (i + 1)
    | case4 n a before b after ih =>
      obtain rfl : a = b := h 0
      rw [if_pos rfl, ih fun i => h (i + 1)]
      rfl

/-! ## 4. Two texts -/

/-- The difference of two texts determines the lines of the new one, up to the empty lines at its
end. -/
theorem lines_of_lineDiff {o f₁ f₂ difference : String} (h₁ : lineDiff o f₁ = some difference)
    (h₂ : lineDiff o f₂ = some difference) :
    (Text.lines f₁).rdropWhile String.isEmpty = (Text.lines f₂).rdropWhile String.isEmpty := by
  have hlines : ∀ {f}, lineDiff o f = some difference →
      diffLines 1 (Text.lines o) (Text.lines f) = difference := by
    intro f h
    rw [lineDiff] at h
    split at h
    · cases h
    · exact Option.some.inj h
  exact rdropWhile_isEmpty_eq_iff.mpr (getD_eq_of_diffLines (Text.newline_not_mem_lines o)
    (Text.newline_not_mem_lines f₁) (Text.newline_not_mem_lines f₂)
    ((hlines h₁).trans (hlines h₂).symm))

/-- A line that looks like a record, a carriage return at the end of a line, and empty lines at the
end of one of the new texts. -/
theorem lines_of_lineDiff_record :
    lineDiff "a\nb\n" "+   2 | b\r\nb\n\n\n" = some "-   1 | a\n+   1 | +   2 | b\n" ∧
      lineDiff "a\nb\n" "+   2 | b\nb" = some "-   1 | a\n+   1 | +   2 | b\n" ∧
      (Text.lines "+   2 | b\r\nb\n\n\n").rdropWhile String.isEmpty
        = (Text.lines "+   2 | b\nb").rdropWhile String.isEmpty := by
  have hold : Text.lines "a\nb\n" = ["a", "b"] := rfl
  have h₁ : lineDiff "a\nb\n" "+   2 | b\r\nb\n\n\n"
      = some "-   1 | a\n+   1 | +   2 | b\n" := by
    have hnew : Text.lines "+   2 | b\r\nb\n\n\n" = ["+   2 | b", "b", "", ""] := rfl
    rw [lineDiff, if_neg (by decide), hold, hnew, diffLines, diffLines, diffLines, diffLines,
      diffLines]
    rfl
  have h₂ : lineDiff "a\nb\n" "+   2 | b\nb" = some "-   1 | a\n+   1 | +   2 | b\n" := by
    have hnew : Text.lines "+   2 | b\nb" = ["+   2 | b", "b"] := rfl
    rw [lineDiff, if_neg (by decide), hold, hnew, diffLines, diffLines, diffLines]
    rfl
  exact ⟨h₁, h₂, lines_of_lineDiff h₁ h₂⟩

/-- Two texts that are not the same have a difference, which is empty exactly if their lines are the
same up to the empty ones at the end. -/
theorem lineDiff_eq_some {before after : String} (h : before ≠ after) :
    ∃ difference, lineDiff before after = some difference ∧
      (difference = "" ↔ (Text.lines before).rdropWhile String.isEmpty
        = (Text.lines after).rdropWhile String.isEmpty) :=
  ⟨_, if_neg h, by rw [rdropWhile_isEmpty_eq_iff, diffLines_eq_empty_iff]⟩

end CljFormat
