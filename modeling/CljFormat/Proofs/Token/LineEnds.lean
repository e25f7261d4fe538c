/-
CljFormat.Proofs.Token.LineEnds — the line feeds at the end of a source, and its carriage returns.

Blanks aside, a text ends in some number of line feeds. As characters are put behind it, a line feed
counts on, a blank leaves the number as it is, and anything else takes it back to none
(`Text.feeds`). What a token does to the number is told by its kind, but for a character literal,
whose character may itself be a line feed or a blank (`Token.feeds`). So the tokens of a source that
scans to its end tell how many line feeds stand there (`feeds_scan`).

Carriage returns stand in tokens or between them, so the tokens have no more of them than the source
(`returns_scan`).
-/
import CljFormat.Proofs.Token.Lossless
import CljFormat.Proofs.Token.StringBody

namespace CljFormat

open Text (isBlank)

namespace Text

variable {c : Char} {cs : List Char}

/-! ## 1. Line feeds at the end of a text -/

/-- How many line feeds a text ends in with `c` behind it, if it ends in `n`. -/
def feed (n : Nat) (c : Char) : Nat :=
  if c = '\n' then n + 1 else if isBlank c then n else 0

/-- How many line feeds a text ends in with `cs` behind it, if it ends in `n`. -/
def feeds (n : Nat) (cs : List Char) : Nat :=
  cs.foldl feed n

@[simp] theorem feeds_nil (n : Nat) : feeds n [] = n := rfl

theorem feeds_cons (n : Nat) (c : Char) (cs : List Char) :
    feeds n (c :: cs) = feeds (feed n c) cs := rfl

@[simp] theorem feeds_append (n : Nat) (cs ds : List Char) :
    feeds n (cs ++ ds) = feeds (feeds n cs) ds :=
  List.foldl_append

theorem feed_blank (hblank : isBlank c = true) (hnewline : c ≠ '\n') (n : Nat) : feed n c = n := by
  rw [feed, if_neg hnewline, if_pos hblank]

/-- Behind anything but a blank, there is no line feed yet. -/
theorem feed_solid (hsolid : isBlank c = false) (n : Nat) : feed n c = 0 := by
  have hnewline : c ≠ '\n' := by
    rintro rfl
    exact absurd hsolid (by decide)
  rw [feed, if_neg hnewline, if_neg (by simp [hsolid])]

theorem feeds_cons_solid (hsolid : isBlank c = false) (n : Nat) (cs : List Char) :
    feeds n (c :: cs) = feeds 0 cs := by
  rw [feeds_cons, feed_solid hsolid]

theorem feeds_concat_solid (hsolid : isBlank c = false) (n : Nat) (cs : List Char) :
    feeds n (cs ++ [c]) = 0 := by
  rw [feeds_append, feeds_cons_solid hsolid, feeds_nil]

theorem feeds_zero (h : '\n' ∉ cs) : feeds 0 cs = 0 := by
  induction cs with
  | nil => rfl
  | cons c cs ih =>
    rw [List.mem_cons, not_or] at h
    have hfeed : feed 0 c = 0 := by
      rw [feed, if_neg (Ne.symm h.1)]
      split <;> rfl
    rw [feeds_cons, hfeed, ih h.2]

theorem feeds_newlines (n k : Nat) : feeds n (List.replicate k '\n') = n + k := by
  induction k generalizing n with
  | zero => rfl
  | succ k ih =>
    have hfeed : feed n '\n' = n + 1 := rfl
    rw [List.replicate_succ, feeds_cons, hfeed, ih]
    omega

end Text

open Text (feeds feeds_cons feeds_append)

/-! ## 2. Line feeds behind a token -/

namespace Lexeme

variable {c : Char} {cs body ahead : List Char} {kind : Token.Kind}

/-- Besides a line feed, no blank starts a token. -/
theorem isBlank_of_token (h : ofChars c cs = .token kind body ahead) (hnewline : c ≠ '\n') :
    isBlank c = false := by
  cases hblank : isBlank c with
  | false => rfl
  | true =>
    by_cases hlead : c ∈ leads
    · have hblanks : leads.filter isBlank = ['\n'] := rfl
      have hmem : c ∈ leads.filter isBlank := List.mem_filter.mpr ⟨hlead, hblank⟩
      rw [hblanks] at hmem
      exact absurd (List.mem_singleton.mp hmem) hnewline
    · rw [ofChars_of_not_lead hlead, if_pos hblank] at h
      cases h

/-- A token without a text of its own is a line feed, or ends in none. -/
theorem feeds_mark (h : ofChars c cs = .token kind body ahead) (hkind : kind.isWord = false)
    (n : Nat) : feeds n (c :: body ++ ahead) = if kind = .newline then n + 1 else 0 := by
  unfold ofChars at h
  split at h
  case h_2 => split at h <;> cases h; cases hkind
  case h_3 => split at h <;> cases h; cases hkind
  case h_6 => unfold dispatch at h; split at h <;> cases h <;> first | rfl | cases hkind
  case h_7 => rw [sign_eq_run, signKind] at h; split at h <;> cases h <;> cases hkind
  case h_8 => rw [sign_eq_run, signKind] at h; split at h <;> cases h <;> cases hkind
  case h_21 =>
    split at h
    · cases h
    · split at h
      · cases h; cases hkind
      · split at h <;> cases h; cases hkind
  all_goals (cases h; first | rfl | cases hkind)

end Lexeme

/-- Behind a text that stands by itself, only what a character literal ends in counts. -/
theorem Stands.feeds {kind : Token.Kind} {text : List Char} (h : Stands kind text)
    (hkind : kind.isWord = true) (n : Nat) :
    Text.feeds n text = if kind = .charLiteral then Text.feeds 0 text else 0 := by
  have hstands := h
  obtain ⟨c, body, rfl, hagain⟩ := h
  have htoken := hagain [] kind.mayPrecede_nil
  have hnewline : c ≠ '\n' := by
    rintro rfl
    cases htoken
    cases hkind
  have hsolid := Lexeme.isBlank_of_token htoken hnewline
  have hline : kind.staysOnLine = true → Text.feeds n (c :: body) = 0 := fun hstays => by
    have hnone := List.not_mem_of_not_mem_cons (hstands.newline_not_mem hstays)
    rw [Text.feeds_cons_solid hsolid, Text.feeds_zero hnone]
  cases kind with
  | charLiteral => rw [if_pos rfl, Text.feeds_cons_solid hsolid, Text.feeds_cons_solid hsolid]
  | string =>
    obtain ⟨s, hs⟩ := hstands.quotes
    rw [hs]
    exact Text.feeds_concat_solid (by decide) n _
  | symbol | keyword | number | comment => exact hline rfl
  | _ => cases hkind

/-! ## 3. Line feeds at the end of a source -/

/-- How many line feeds a text ends in with a token behind it, if it ends in `n`. -/
def Token.feeds (n : Nat) (t : Token) : Nat :=
  if t.kind = .newline then n + 1
  else if t.kind = .charLiteral then Text.feeds 0 t.text.toList
  else 0

/-- The texts of tokens, one behind the other. -/
def charsOf (ts : List Token) : List Char :=
  ts.flatMap fun t => t.text.toList

@[simp] theorem charsOf_nil : charsOf [] = [] := rfl

@[simp] theorem charsOf_cons (t : Token) (ts : List Token) :
    charsOf (t :: ts) = t.text.toList ++ charsOf ts := rfl

@[simp] theorem charsOf_append (ts us : List Token) :
    charsOf (ts ++ us) = charsOf ts ++ charsOf us :=
  List.flatMap_append

/-- The text of a token does what its kind tells. -/
theorem feeds_of_mem_scan {source : String} {t : Token} (ht : t ∈ (scan source).tokens) (n : Nat) :
    Text.feeds n t.text.toList = t.feeds n := by
  cases hkind : t.kind.isWord with
  | true =>
    have hword : t.kind ≠ .newline := fun hnewline => by
      rw [hnewline] at hkind
      cases hkind
    rw [(stands_of_mem_scan ht hkind).feeds hkind, Token.feeds, if_neg hword]
  | false =>
    obtain ⟨c, body, ahead, rest, hlexeme, htext⟩ := exists_ofChars_of_mem_scanFrom ht
    have hmark : t.kind ≠ .charLiteral := fun hliteral => by
      rw [hliteral] at hkind
      cases hkind
    rw [htext, String.toList_ofList, Lexeme.feeds_mark hlexeme hkind, Token.feeds, if_neg hmark]

namespace Tiles

variable {o : Nat} {cs : List Char} {s : Scan}

/-- The tokens of a scan without a fault lead to the number that the characters lead to. -/
theorem feeds (h : Tiles o cs s)
    (htokens : ∀ t ∈ s.tokens, ∀ n, Text.feeds n t.text.toList = t.feeds n)
    (hfault : s.ending.fault = none) (n : Nat) :
    s.tokens.foldl Token.feeds n = Text.feeds n cs := by
  induction h generalizing n with
  | done p => rfl
  | fault p cs cause => cases hfault
  | @blank o c cs s hblank hnewline _ ih =>
    rw [ih htokens hfault, feeds_cons, Text.feed_blank hblank hnewline]
  | @whole c body rest s kind p _ ih =>
    obtain ⟨htoken, hlater⟩ := List.forall_mem_cons.mp htokens
    rw [List.foldl_cons, ih hlater hfault, ← htoken, String.toList_ofList, ← feeds_append]
  | @shared d a cs s p hshares _ ih =>
    -- What the token shows of the next one is taken there, and starts a number anew.
    have hsolid : ∀ x ∈ Dispatch.sharing, isBlank x.2 = false := by decide
    obtain ⟨-, hlater⟩ := List.forall_mem_cons.mp htokens
    rw [List.foldl_cons, ih hlater hfault, feeds_cons n, Text.feeds_cons_solid (hsolid _ hshares),
      Text.feeds_cons_solid (hsolid _ hshares)]

/-- The tokens of a scan have no more carriage returns than the characters. -/
theorem returns (h : Tiles o cs s) :
    (charsOf s.tokens).count '\r' ≤ cs.count '\r' := by
  induction h with
  | done p => exact Nat.le_refl 0
  | fault p cs cause => exact Nat.zero_le _
  | blank _ _ _ ih => exact Nat.le_trans ih (List.count_le_count_cons ..)
  | whole kind p _ ih =>
    rw [charsOf_cons, String.toList_ofList, List.count_append, List.count_append]
    exact Nat.add_le_add_left ih _
  | @shared d a cs s p hshares _ ih =>
    have hmark : ∀ x ∈ Dispatch.sharing, ['#', x.2].count '\r' = 0 := by decide
    rw [charsOf_cons, String.toList_ofList, List.count_append, hmark _ hshares, Nat.zero_add]
    exact Nat.le_trans ih (List.count_le_count_cons ..)

end Tiles

/-- The tokens of a source that scans to its end tell how many line feeds stand at its end. -/
theorem feeds_scan {source : String} (hfault : (scan source).ending.fault = none) :
    (scan source).tokens.foldl Token.feeds 0 = Text.feeds 0 source.toList :=
  (tiles_scanFrom .start source.toList).feeds (fun _ ht => feeds_of_mem_scan ht) hfault 0

/-- The tokens of a source have no more carriage returns than the source. -/
theorem returns_scan (source : String) :
    (charsOf (scan source).tokens).count '\r' ≤ source.toList.count '\r' :=
  (tiles_scanFrom .start source.toList).returns

end CljFormat
