/-
CljFormat.Proofs.Token.Lexeme — a token scanned again.

A token that carries text (a symbol, keyword, number, character literal, comment or string) is
scanned again as the same token wherever its text is put, as long as what follows cannot lengthen it
(`Token.Kind.MayPrecede`). `Stands kind text` says this of a text, and `stands_of_mem_scan` says it
of every token of every scan.

The side condition depends on the kind, and it is exactly what the printer has to see to: a run of
symbol characters has to be followed by another character, a comment by the end of its line, and a
string by nothing in particular, since its closing quote ends it.
-/
import CljFormat.Proofs.Lists
import CljFormat.Proofs.Token.Spelling
import Mathlib.Data.List.TakeWhile

namespace CljFormat

open Text (isSymbolChar isBlank)

/-! ## 1. What may follow a token -/

/-- No symbol character follows. -/
def EndsRun (rest : List Char) : Prop := ∀ c ∈ rest.head?, isSymbolChar c = false

/-- The end of a line follows, or nothing. -/
def EndsLine (rest : List Char) : Prop := ∀ c ∈ rest.head?, c = '\r' ∨ c = '\n'

/-- Whether a token of this kind carries a text of its own choosing. -/
def Token.Kind.isWord : Token.Kind → Bool
  | symbol | keyword | number | charLiteral | comment | string => true
  | _ => false

/-- What may follow a token of this kind without becoming part of it. -/
def Token.Kind.MayPrecede (kind : Token.Kind) (rest : List Char) : Prop :=
  match kind with
  | symbol | keyword | number | charLiteral => EndsRun rest
  | comment => EndsLine rest
  | _ => True

/-- `text` is a token of the kind `kind` in front of anything that cannot lengthen it. -/
def Stands (kind : Token.Kind) (text : List Char) : Prop :=
  ∃ c body, text = c :: body ∧
    ∀ rest, kind.MayPrecede rest → Lexeme.ofChars c (body ++ rest) = .token kind body []

theorem endsRun_cons {c : Char} {cs : List Char} (h : isSymbolChar c = false) :
    EndsRun (c :: cs) := by
  intro d hd
  simp only [List.head?_cons, Option.mem_def, Option.some.injEq] at hd
  exact hd ▸ h

theorem endsLine_newline (cs : List Char) : EndsLine ('\n' :: cs) := by
  intro d hd
  simp only [List.head?_cons, Option.mem_def, Option.some.injEq] at hd
  exact .inr hd.symm

theorem endsRun_nil : EndsRun [] := by simp [EndsRun]

theorem endsLine_nil : EndsLine [] := by simp [EndsLine]

/-- Every token may come last. -/
theorem Token.Kind.mayPrecede_nil (kind : Token.Kind) : kind.MayPrecede [] := by
  cases kind <;> first | exact endsRun_nil | exact endsLine_nil | trivial

/-! ## 2. Longest runs -/

theorem isBlank_of_isSymbolChar {c : Char} (h : isSymbolChar c = true) : isBlank c = false := by
  simp only [Text.isSymbolChar, Bool.and_eq_true, Bool.not_eq_true'] at h
  exact h.1

theorem isSymbolChar_of_isDigit {c : Char} (h : c.isDigit = true) : isSymbolChar c = true := by
  have hlow : '0'.toNat ≤ c.toNat ∧ c.toNat ≤ '9'.toNat := by
    simp only [Char.isDigit, Bool.and_eq_true, decide_eq_true_eq, UInt32.le_iff_toNat_le,
      ge_iff_le] at h
    exact h
  have hcases : c ∈ ['0', '1', '2', '3', '4', '5', '6', '7', '8', '9'] := by
    have hval : c = Char.ofNat c.toNat := (Char.ofNat_toNat c).symm
    have h48 : '0'.toNat = 48 := rfl
    have h57 : '9'.toNat = 57 := rfl
    generalize c.toNat = n at *
    subst hval
    obtain rfl | rfl | rfl | rfl | rfl | rfl | rfl | rfl | rfl | rfl :
        n = 48 ∨ n = 49 ∨ n = 50 ∨ n = 51 ∨ n = 52 ∨ n = 53 ∨ n = 54 ∨ n = 55 ∨ n = 56 ∨
          n = 57 := by omega
    all_goals decide
  simp only [List.mem_cons, List.not_mem_nil, or_false] at hcases
  rcases hcases with rfl | rfl | rfl | rfl | rfl | rfl | rfl | rfl | rfl | rfl <;> decide

namespace Lexeme

theorem run_again {kind : Token.Kind} {rest : List Char} (h : EndsRun rest) (cs : List Char) :
    run kind (cs.takeWhile isSymbolChar ++ rest)
      = .token kind (cs.takeWhile isSymbolChar) [] := by
  rw [run, takeWhile_append_of_head h, List.takeWhile_idem]

theorem comment_again {rest : List Char} (h : EndsLine rest) (lead cs : List Char) :
    comment lead (cs.takeWhile (fun c => c != '\r' && c != '\n') ++ rest)
      = .token .comment (lead ++ cs.takeWhile fun c => c != '\r' && c != '\n') [] := by
  have hstop : ∀ c ∈ rest.head?, (c != '\r' && c != '\n') = false := by
    intro c hc
    rcases h c hc with rfl | rfl <;> rfl
  rw [comment, takeWhile_append_of_head hstop, List.takeWhile_idem]

/-- The kind of token that a sign starts in front of `cs`. -/
def signKind (cs : List Char) : Token.Kind :=
  if cs.head?.any Char.isDigit then .number else .symbol

theorem sign_eq_run (cs : List Char) : sign cs = run (signKind cs) cs := by
  cases cs with
  | nil => rfl
  | cons d ds =>
    by_cases hd : d.isDigit = true <;> simp [sign, signKind, hd]

theorem signKind_again {rest : List Char} (h : EndsRun rest) (cs : List Char) :
    signKind (cs.takeWhile isSymbolChar ++ rest) = signKind cs := by
  have hdigit : ∀ c, isSymbolChar c = false → c.isDigit = false := by
    intro c hc
    cases hd : c.isDigit with
    | false => rfl
    | true => rw [isSymbolChar_of_isDigit hd] at hc; exact hc
  have hrest : rest.head?.any Char.isDigit = false := by
    cases rest with
    | nil => rfl
    | cons d ds => simpa using hdigit d (h d rfl)
  cases cs with
  | nil => simp [signKind, hrest]
  | cons d ds =>
    cases hd : isSymbolChar d with
    | true => cases hdigit' : d.isDigit <;> simp [signKind, hd, hdigit']
    | false => simp [signKind, hd, hrest, hdigit d hd]

/-- What can start at `c` in front of `cs`. Tokens without a text of their own choosing are taken
together. -/
inductive Starts (c : Char) (cs : List Char) : Lexeme → Prop
  | blank : isBlank c = true → Starts c cs .blank
  | fault (cause : ScanFault) : Starts c cs (.fault cause)
  | comment (body : List Char) : Starts c cs (.token .comment body [])
  | string (body : List Char) : c = '"' → stringBody false cs = some body →
      Starts c cs (.token .string body [])
  | charLiteral (body : List Char) : Starts c cs (.token .charLiteral body [])
  | keyword : c = ':' → Starts c cs (.token .keyword (cs.takeWhile isSymbolChar) [])
  | number : Starts c cs (.token .number (cs.takeWhile isSymbolChar) [])
  | symbol : isSymbolChar c = true → Starts c cs (.token .symbol (cs.takeWhile isSymbolChar) [])
  | mark (kind : Token.Kind) (body ahead : List Char) : kind.isWord = false →
      Starts c cs (.token kind body ahead)

theorem starts_sign {c : Char} (hc : isSymbolChar c = true) (cs : List Char) :
    Starts c cs (sign cs) := by
  rw [sign_eq_run, signKind]
  split
  · exact .number
  · exact .symbol hc

theorem starts_dispatch (c : Char) (cs : List Char) : Starts c cs (dispatch cs) := by
  unfold dispatch
  split
  case h_11 => exact .comment _
  case h_12 => exact .fault _
  all_goals exact .mark _ _ _ rfl

theorem starts_ofChars (c : Char) (cs : List Char) : Starts c cs (ofChars c cs) := by
  unfold ofChars
  split
  case h_1 => exact .comment _
  case h_2 =>
    split
    · next body hbody => exact .string body rfl hbody
    · exact .fault _
  case h_3 =>
    split
    · exact .charLiteral _
    · exact .fault _
  case h_4 => exact .keyword rfl
  case h_5 => exact .symbol (by decide)
  case h_6 => exact starts_dispatch _ _
  case h_7 => exact starts_sign (by decide) cs
  case h_8 => exact starts_sign (by decide) cs
  case h_21 =>
    split
    · next hblank => exact .blank hblank
    · split
      · exact .number
      · split
        · next hsym => exact .symbol hsym
        · exact .fault _
  all_goals exact .mark _ _ _ rfl

/-- Only blanks are skipped. -/
theorem isBlank_of_blank {c : Char} {cs : List Char} (h : ofChars c cs = .blank) :
    isBlank c = true := by
  have hstarts := starts_ofChars c cs
  rw [h] at hstarts
  cases hstarts with
  | blank hblank => exact hblank

/-- A sign and what follows it stand by themselves. -/
theorem stands_of_sign {c : Char} {cs body ahead : List Char} {kind : Token.Kind}
    (hc : ∀ ds, ofChars c ds = sign ds) (h : ofChars c cs = .token kind body ahead) :
    ahead = [] ∧ Stands kind (c :: body) := by
  simp only [hc, sign_eq_run, run, token.injEq] at h
  obtain ⟨rfl, rfl, rfl⟩ := h
  refine ⟨rfl, _, _, rfl, fun rest hrest => ?_⟩
  have hends : EndsRun rest := by
    unfold signKind at hrest; split at hrest <;> exact hrest
  rw [hc, sign_eq_run, signKind_again hends, run_again hends]

/-- The part of a string that ends it does not depend on what follows. -/
theorem stringBody_append {escaped : Bool} {cs body : List Char}
    (h : stringBody escaped cs = some body) (rest : List Char) :
    stringBody escaped (body ++ rest) = some body := by
  induction cs generalizing escaped body with
  | nil => simp [stringBody] at h
  | cons c cs ih =>
    rw [stringBody] at h
    split at h
    · next hend =>
      obtain ⟨rfl, rfl⟩ := hend
      injection h with h
      subst h
      simp [stringBody]
    · next hend =>
      obtain ⟨later, hlater, rfl⟩ := Option.map_eq_some_iff.mp h
      rw [List.cons_append, stringBody, if_neg hend, ih hlater, Option.map_some]

/-! ## 3. The characters that decide alone -/

/-- The characters after which the scanner looks further before it knows the kind. -/
def leads : List Char :=
  [';', '"', '\\', ':', '%', '#', '+', '-', '\'', '@', '\x60', '^', '{', '[', '(', '}', ']', ')',
    '~', '\n']

/-- What starts at a character that is none of `leads`. -/
theorem ofChars_of_not_lead {c : Char} (h : c ∉ leads) (cs : List Char) :
    ofChars c cs =
      if isBlank c then blank
      else if c.isDigit then run .number cs
      else if isSymbolChar c then run .symbol cs
      else fault (.unrecognized c) := by
  unfold ofChars
  split
  case h_21 => rfl
  all_goals exact absurd (by decide) h

/-- A token that carries text takes all it shows, and is scanned again wherever nothing lengthens
it. -/
theorem stands_of_ofChars {c : Char} {cs body ahead : List Char} {kind : Token.Kind}
    (h : ofChars c cs = .token kind body ahead) (hkind : kind.isWord = true) :
    ahead = [] ∧ Stands kind (c :: body) := by
  by_cases hc : c ∈ leads
  · simp only [leads, List.mem_cons, List.not_mem_nil, or_false] at hc
    rcases hc with rfl | rfl | rfl | rfl | rfl | rfl | rfl | rfl | hc
    · obtain ⟨rfl, rfl, rfl⟩ : Token.Kind.comment = kind ∧ _ = body ∧ [] = ahead := by
        simpa [ofChars, comment] using h
      exact ⟨rfl, _, _, rfl, fun rest hrest => comment_again hrest [] cs⟩
    · simp only [ofChars] at h
      split at h
      · next string hbody =>
        simp only [token.injEq] at h
        obtain ⟨rfl, rfl, rfl⟩ := h
        refine ⟨rfl, _, _, rfl, fun rest _ => ?_⟩
        simp only [ofChars, stringBody_append hbody]
      · simp at h
    · simp only [ofChars] at h
      split at h
      · next d ds =>
        simp only [token.injEq] at h
        obtain ⟨rfl, rfl, rfl⟩ := h
        refine ⟨rfl, _, _, rfl, fun rest hrest => ?_⟩
        simp only [ofChars, List.cons_append]
        rw [takeWhile_append_of_head hrest, List.takeWhile_idem]
      · simp at h
    · obtain ⟨rfl, rfl, rfl⟩ : Token.Kind.keyword = kind ∧ _ = body ∧ [] = ahead := by
        simpa [ofChars, run] using h
      exact ⟨rfl, _, _, rfl, fun rest hrest => run_again hrest cs⟩
    · obtain ⟨rfl, rfl, rfl⟩ : Token.Kind.symbol = kind ∧ _ = body ∧ [] = ahead := by
        simpa [ofChars, run] using h
      exact ⟨rfl, _, _, rfl, fun rest hrest => run_again hrest cs⟩
    · simp only [ofChars] at h
      unfold dispatch at h
      split at h <;> simp only [comment, token.injEq, reduceCtorEq, single] at h <;>
        obtain ⟨rfl, rfl, rfl⟩ := h <;> try simp [Token.Kind.isWord] at hkind
      exact ⟨rfl, _, _, rfl, fun rest hrest => comment_again hrest ['!'] _⟩
    · exact stands_of_sign (fun _ => rfl) h
    · exact stands_of_sign (fun _ => rfl) h
    · rcases hc with rfl | rfl | rfl | rfl | rfl | rfl | rfl | rfl | rfl | rfl | rfl | rfl
      all_goals
        simp only [ofChars, single, token.injEq] at h
        obtain ⟨rfl, -, -⟩ := h
        simp [Token.Kind.isWord] at hkind
  · rw [ofChars_of_not_lead hc] at h
    split at h
    · simp at h
    · next hblank =>
      split at h
      · next hdigit =>
        obtain ⟨rfl, rfl, rfl⟩ : Token.Kind.number = kind ∧ _ = body ∧ [] = ahead := by
          simpa [run] using h
        refine ⟨rfl, _, _, rfl, fun rest hrest => ?_⟩
        rw [ofChars_of_not_lead hc, if_neg hblank, if_pos hdigit, run_again hrest]
      · next hdigit =>
        split at h
        · next hsym =>
          obtain ⟨rfl, rfl, rfl⟩ : Token.Kind.symbol = kind ∧ _ = body ∧ [] = ahead := by
            simpa [run] using h
          refine ⟨rfl, _, _, rfl, fun rest hrest => ?_⟩
          rw [ofChars_of_not_lead hc, if_neg hblank, if_neg hdigit, if_pos hsym, run_again hrest]
        · simp at h

end Lexeme

/-- Every token of a scan is what starts at its first character. -/
theorem exists_ofChars_of_mem_scanFrom {p : Position} {n : Nat} {cs : List Char} {t : Token}
    (ht : t ∈ (scanFrom p n cs).tokens) :
    ∃ c body ahead rest, Lexeme.ofChars c rest = .token t.kind body ahead ∧
      t.text = String.ofList (c :: body ++ ahead) := by
  induction cs generalizing p n with
  | nil => simp at ht
  | cons c cs ih =>
    cases n with
    | succ n => exact ih ht
    | zero =>
      cases h : Lexeme.ofChars c cs with
      | blank =>
        rw [scanFrom_blank p h] at ht
        exact ih ht
      | token kind body ahead =>
        rw [scanFrom_token p h] at ht
        rcases List.mem_cons.mp ht with rfl | hlater
        · exact ⟨c, body, ahead, cs, h, rfl⟩
        · exact ih hlater
      | fault cause =>
        rw [scanFrom_fault p h] at ht
        simp at ht

/-- Every token of a scan that carries text stands by itself. -/
theorem stands_of_mem_scanFrom {p : Position} {n : Nat} {cs : List Char} {t : Token}
    (ht : t ∈ (scanFrom p n cs).tokens) (hkind : t.kind.isWord = true) :
    Stands t.kind t.text.toList := by
  obtain ⟨c, body, ahead, rest, hlexeme, htext⟩ := exists_ofChars_of_mem_scanFrom ht
  obtain ⟨rfl, hstands⟩ := Lexeme.stands_of_ofChars hlexeme hkind
  simpa [htext] using hstands

/-- Every token of a source that carries text stands by itself. -/
theorem stands_of_mem_scan {source : String} {t : Token} (ht : t ∈ (scan source).tokens)
    (hkind : t.kind.isWord = true) : Stands t.kind t.text.toList :=
  stands_of_mem_scanFrom ht hkind

/-! ## 4. Standing texts as stretches of a text -/

/-- A standing text is its token, in front of what may follow. -/
theorem Stands.spells {kind : Token.Kind} {text : String} {rest : List Char}
    (h : Stands kind text.toList) (hrest : kind.MayPrecede rest) :
    Spells text.toList [(kind, text)] rest := by
  obtain ⟨c, body, htext, hagain⟩ := h
  have htoken := Spells.token (hagain rest hrest)
  rw [List.append_nil, ← htext, String.ofList_toList] at htoken
  exact htoken

/-- Only a colon starts a keyword. -/
theorem Lexeme.eq_colon_of_keyword {c : Char} {cs body ahead : List Char}
    (h : Lexeme.ofChars c cs = .token .keyword body ahead) : c = ':' := by
  have hstarts := Lexeme.starts_ofChars c cs
  rw [h] at hstarts
  cases hstarts with
  | keyword hc => exact hc
  | mark _ _ _ hkind => simp [Token.Kind.isWord] at hkind

/-- A symbol starts with none of the delimiters and marks that are tokens by themselves. -/
theorem Lexeme.not_mem_of_symbol {c : Char} {cs body ahead : List Char}
    (h : Lexeme.ofChars c cs = .token .symbol body ahead) :
    c ∉ ['{', '(', '"', ':', '\'', '^'] := by
  intro hc
  simp only [List.mem_cons, List.not_mem_nil, or_false] at hc
  rcases hc with rfl | rfl | rfl | rfl | rfl | rfl
  case inr.inr.inl => simp only [Lexeme.ofChars] at h; split at h <;> simp at h
  all_goals simp [Lexeme.ofChars, Lexeme.single, Lexeme.run] at h

/-- A symbol consists of symbol characters. -/
theorem Lexeme.isSymbolChar_of_symbol {c : Char} {cs body ahead : List Char}
    (h : Lexeme.ofChars c cs = .token .symbol body ahead) :
    ∀ d ∈ c :: body, isSymbolChar d = true := by
  have hstarts := Lexeme.starts_ofChars c cs
  rw [h] at hstarts
  cases hstarts with
  | symbol hc =>
    intro d hd
    rcases List.mem_cons.mp hd with rfl | hd
    · exact hc
    · exact List.mem_takeWhile_imp hd
  | mark _ _ _ hkind => simp [Token.Kind.isWord] at hkind

/-- A standing symbol consists of symbol characters. -/
theorem Stands.isSymbolChar {text : List Char} (h : Stands .symbol text) :
    ∀ c ∈ text, isSymbolChar c = true := by
  obtain ⟨c, body, rfl, hagain⟩ := h
  exact Lexeme.isSymbolChar_of_symbol (hagain [] endsRun_nil)

/-- A standing keyword starts with a colon. -/
theorem Stands.keyword_head {text : List Char} (h : Stands .keyword text) :
    ∃ body, text = ':' :: body := by
  obtain ⟨c, body, rfl, hagain⟩ := h
  exact ⟨body, by rw [Lexeme.eq_colon_of_keyword (hagain [] endsRun_nil)]⟩

/-- The characters after a `#` that make it more than the mark of a tag. -/
def Lexeme.dispatchMarks : List Char :=
  ['{', '(', '"', ':', '?', '\'', '_', '^', '=', '!', '<']

theorem Lexeme.dispatch_of_not_mark {cs : List Char}
    (h : ∀ c ∈ cs.head?, c ∉ Lexeme.dispatchMarks) :
    Lexeme.dispatch cs = Lexeme.single .octothorpe := by
  unfold Lexeme.dispatch
  split
  case h_13 => rfl
  all_goals exact absurd (by decide) (h _ rfl)

/-! ## 5. Runs of symbol characters, cut into tokens

A tag is a `#` and a symbol, which need not be neighbours in a source. Put side by side they may
scan to something else: `#` and `_x` to a discard of `x`. Whatever they scan to, it ends where the
symbol ends, unless a comment starts in it. -/

/-- A blank or a closing delimiter follows, or nothing. -/
def Breaks (rest : List Char) : Prop :=
  ∀ c ∈ rest.head?, isBlank c = true ∨ c ∈ [')', ']', '\x7d']

theorem Breaks.endsRun {rest : List Char} (h : Breaks rest) : EndsRun rest := by
  intro c hc
  rcases h c hc with hblank | hclose
  · simp [Text.isSymbolChar, hblank]
  · simp only [List.mem_cons, List.not_mem_nil, or_false] at hclose
    rcases hclose with rfl | rfl | rfl <;> decide

/-- A character that breaks a run is none of those that go on with a dispatch. -/
theorem Breaks.not_mark {rest : List Char} (h : Breaks rest) :
    ∀ c ∈ rest.head?, c ∉ '@' :: Lexeme.dispatchMarks := by
  intro c hc hmark
  simp only [Lexeme.dispatchMarks, List.mem_cons, List.not_mem_nil, or_false] at hmark
  rcases hmark with rfl | rfl | rfl | rfl | rfl | rfl | rfl | rfl | rfl | rfl | rfl | rfl
  all_goals
    rcases h _ hc with hblank | hclose
    · exact absurd hblank (by decide)
    · exact absurd hclose (by decide)

namespace Lexeme

/-- A run to the end of `cs` ends there when something follows `cs`. -/
theorem run_of_run {kind kind' : Token.Kind} {cs rest body ahead : List Char}
    (hcs : ∀ d ∈ cs, isSymbolChar d = true) (hrest : EndsRun rest)
    (h : run kind cs = .token kind' body ahead) :
    run kind (cs ++ rest) = .token kind' body ahead ∧ cs = body := by
  rw [run, List.takeWhile_eq_self_iff.mpr hcs] at h
  have hagain : run kind (cs.takeWhile isSymbolChar ++ rest) = _ := run_again hrest cs
  rw [List.takeWhile_eq_self_iff.mpr hcs] at hagain
  refine ⟨hagain.trans h, ?_⟩
  simp only [token.injEq] at h
  exact h.2.1

/-- What a `#` takes is what stands behind it. -/
theorem prefix_of_dispatch {cs body ahead : List Char} {kind : Token.Kind}
    (h : dispatch cs = .token kind body ahead) : ∃ later, cs = body ++ later := by
  unfold dispatch at h
  split at h
  case h_11 ds =>
    obtain ⟨-, rfl, -⟩ : _ ∧ _ = body ∧ _ := by simpa [comment] using h
    exact ⟨ds.dropWhile _, congrArg ('!' :: ·) List.takeWhile_append_dropWhile.symm⟩
  case h_12 => simp at h
  all_goals
    simp only [single, token.injEq] at h
    obtain ⟨-, rfl, -⟩ := h
    exact ⟨_, rfl⟩

/-- Behind most characters, what a `#` starts is settled by that character. -/
theorem dispatch_cons {d : Char} (hquestion : d ≠ '?') (hbang : d ≠ '!') (ds es : List Char) :
    dispatch (d :: ds) = dispatch (d :: es) := by
  unfold dispatch
  split <;> simp_all

/-- A `#?` without an `@` behind it. -/
theorem dispatch_question {cs : List Char} (h : ∀ d ∈ cs.head?, d ≠ '@') :
    dispatch ('?' :: cs) = .token (.dispatch .readerCond) ['?'] [] := by
  unfold dispatch
  split <;> simp_all

/-- What a `#` starts inside a run of symbol characters does not depend on what follows the run,
unless it is a comment. -/
theorem dispatch_run {cs rest body ahead : List Char} {kind : Token.Kind}
    (hcs : ∀ d ∈ cs, isSymbolChar d = true) (hrest : Breaks rest)
    (h : dispatch cs = .token kind body ahead) (hkind : kind ≠ .comment) :
    dispatch (cs ++ rest) = .token kind body ahead ∧ ∃ later, cs = body ++ later := by
  cases cs with
  | nil =>
    obtain ⟨rfl, rfl, rfl⟩ : Token.Kind.octothorpe = kind ∧ [] = body ∧ [] = ahead := by
      simpa [dispatch, single] using h
    have hmark : ∀ c ∈ rest.head?, c ∉ dispatchMarks := fun c hc hm =>
      hrest.not_mark c hc (List.mem_cons_of_mem _ hm)
    exact ⟨dispatch_of_not_mark hmark, [], rfl⟩
  | cons d ds =>
    by_cases hquestion : d = '?'
    · subst hquestion
      have hat : ∀ e ∈ (ds ++ rest).head?, e ≠ '@' := by
        rintro e he rfl
        cases ds with
        | nil => exact hrest.not_mark '@' he List.mem_cons_self
        | cons e es =>
          simp only [List.cons_append, List.head?_cons, Option.mem_def, Option.some.injEq] at he
          exact absurd (hcs e (by simp)) (by rw [he]; decide)
      have hds : ∀ e ∈ ds.head?, e ≠ '@' := by
        rintro e he rfl
        exact absurd (hcs '@' (List.mem_cons_of_mem _ (List.mem_of_mem_head? he))) (by decide)
      rw [dispatch_question hds] at h
      rw [List.cons_append, dispatch_question hat]
      simp only [token.injEq] at h
      obtain ⟨rfl, rfl, rfl⟩ := h
      exact ⟨rfl, ds, rfl⟩
    · have hbang : d ≠ '!' := by
        rintro rfl
        simp only [dispatch, comment, token.injEq] at h
        exact hkind h.1.symm
      refine ⟨?_, prefix_of_dispatch h⟩
      rw [List.cons_append, dispatch_cons hquestion hbang (ds ++ rest) ds, h]

/-- What starts inside a run of symbol characters does not depend on what follows the run, unless
it is a comment. -/
theorem ofChars_run {c : Char} {cs rest body ahead : List Char} {kind : Token.Kind}
    (hc : isSymbolChar c = true) (hcs : ∀ d ∈ cs, isSymbolChar d = true) (hrest : Breaks rest)
    (h : ofChars c cs = .token kind body ahead) (hkind : kind ≠ .comment) :
    ofChars c (cs ++ rest) = .token kind body ahead ∧ ∃ later, cs = body ++ later := by
  have hrun : ∀ kind', (∀ ds, ofChars c ds = run kind' ds) →
      ofChars c (cs ++ rest) = .token kind body ahead ∧ ∃ later, cs = body ++ later := by
    intro kind' hds
    obtain ⟨hagain, rfl⟩ := run_of_run hcs hrest.endsRun (hds cs ▸ h)
    exact ⟨(hds _).trans hagain, [], (List.append_nil _).symm⟩
  have hsingle : ∀ kind', (∀ ds, ofChars c ds = single kind') →
      ofChars c (cs ++ rest) = .token kind body ahead ∧ ∃ later, cs = body ++ later := by
    intro kind' hds
    have h' := hds cs ▸ h
    simp only [single, token.injEq] at h'
    obtain ⟨rfl, rfl, rfl⟩ := h'
    exact ⟨hds _, cs, rfl⟩
  have hsign : (∀ ds, ofChars c ds = sign ds) →
      ofChars c (cs ++ rest) = .token kind body ahead ∧ ∃ later, cs = body ++ later := by
    intro hds
    have hkept : signKind (cs ++ rest) = signKind cs := by
      have hagain := signKind_again hrest.endsRun cs
      rwa [List.takeWhile_eq_self_iff.mpr hcs] at hagain
    have h' := hds cs ▸ h
    rw [sign_eq_run] at h'
    obtain ⟨hagain, rfl⟩ := run_of_run hcs hrest.endsRun h'
    refine ⟨?_, [], (List.append_nil _).symm⟩
    rw [hds, sign_eq_run, hkept, hagain]
  by_cases hlead : c ∈ leads
  · simp only [leads, List.mem_cons, List.not_mem_nil, or_false] at hlead
    rcases hlead with rfl | rfl | rfl | rfl | rfl | rfl | rfl | rfl | rfl | hlead
    · exact absurd hc (by decide)
    · exact absurd hc (by decide)
    · exact absurd hc (by decide)
    · exact hrun _ fun _ => rfl
    · exact hrun _ fun _ => rfl
    · exact dispatch_run hcs hrest h hkind
    · exact hsign fun _ => rfl
    · exact hsign fun _ => rfl
    · exact hsingle _ fun _ => rfl
    · rcases hlead with rfl | rfl | hlead
      · exact absurd hc (by decide)
      · exact hsingle _ fun _ => rfl
      · rcases hlead with rfl | rfl | rfl | rfl | rfl | rfl | rfl | rfl | rfl <;>
          exact absurd hc (by decide)
  · have hblank : isBlank c = false := by
      cases hb : isBlank c with
      | false => rfl
      | true => simp [Text.isSymbolChar, hb] at hc
    cases hdigit : c.isDigit with
    | true => exact hrun .number fun ds => by simp [ofChars_of_not_lead hlead, hblank, hdigit]
    | false => exact hrun .symbol fun ds => by simp [ofChars_of_not_lead hlead, hblank, hdigit, hc]

end Lexeme

/-- Whatever a run of symbol characters scans to, it scans to that in front of anything that breaks
the run, unless a comment starts in it or scanning fails. -/
theorem spells_run {cs rest : List Char} (hcs : ∀ d ∈ cs, isSymbolChar d = true)
    (hrest : Breaks rest) (hends : (spell cs).2 = none)
    (hcomment : ∀ t ∈ (spell cs).1, t.1 ≠ .comment) : Spells cs (spell cs).1 rest := by
  -- A token takes at least one character, so the length of what is left goes down.
  induction hn : cs.length using Nat.strongRecOn generalizing cs with
  | ind n ih =>
    cases cs with
    | nil => exact Spells.nil rest
    | cons c ds =>
      have hc := hcs c List.mem_cons_self
      have hds : ∀ d ∈ ds, isSymbolChar d = true := fun d hd => hcs d (List.mem_cons_of_mem _ hd)
      have hblank := isBlank_of_isSymbolChar hc
      cases h : Lexeme.ofChars c ds with
      | blank => rw [Lexeme.isBlank_of_blank h] at hblank; exact absurd hblank (by decide)
      | fault cause =>
        rw [spell, scanFrom_fault _ h] at hends
        simp [Scan.spelled] at hends
      | token kind body ahead =>
        have hkind : kind ≠ .comment := by
          have hmem : (kind, String.ofList (c :: body ++ ahead)) ∈ (spell (c :: ds)).1 := by
            rw [spell, scanFrom_token _ h]
            simp [Scan.spelled, Token.spelling]
          exact hcomment _ hmem
        obtain ⟨hagain, later, rfl⟩ := Lexeme.ofChars_run hc hds hrest h hkind
        rw [spell_token h] at hends hcomment ⊢
        have hless : later.length < n := by
          simp only [List.length_cons, List.length_append] at hn
          omega
        have hlater := ih later.length hless (fun d hd => hds d (List.mem_append_right _ hd)) hends
          (fun t ht => hcomment t (List.mem_cons_of_mem _ ht)) rfl
        rw [List.append_assoc] at hagain
        exact (Spells.token hagain).append hlater

/-! ## 6. Tokens that stay on their line -/

/-- Whether a token of this kind ends with its line at the latest. -/
def Token.Kind.staysOnLine : Token.Kind → Bool
  | symbol | keyword | number | comment => true
  | _ => false

namespace Lexeme

theorem newline_not_mem_takeWhile {p : Char → Bool} (hp : p '\n' = false) (cs : List Char) :
    '\n' ∉ cs.takeWhile p := by
  intro hmem
  exact absurd (List.mem_takeWhile_imp hmem) (by simp [hp])

/-- A comment ends with its line. -/
theorem newline_not_mem_comment {c : Char} {cs body ahead : List Char}
    (h : ofChars c cs = .token .comment body ahead) : '\n' ∉ body := by
  have hstops : ∀ ds : List Char, '\n' ∉ ds.takeWhile fun c => c != '\r' && c != '\n' :=
    newline_not_mem_takeWhile rfl
  unfold ofChars at h
  split at h
  case h_1 =>
    obtain ⟨rfl, -⟩ : _ = body ∧ _ := by simpa [comment] using h
    simpa using hstops cs
  case h_2 => split at h <;> simp at h
  case h_3 => split at h <;> simp at h
  case h_6 =>
    unfold dispatch at h
    split at h
    case h_11 ds =>
      obtain ⟨rfl, -⟩ : _ = body ∧ _ := by simpa [comment] using h
      simpa using hstops ds
    all_goals simp [single] at h
  case h_7 => unfold sign at h; split at h <;> (try split at h) <;> simp [run] at h
  case h_8 => unfold sign at h; split at h <;> (try split at h) <;> simp [run] at h
  case h_21 =>
    split at h
    · simp at h
    · split at h
      · simp [run] at h
      · split at h <;> simp [run] at h
  all_goals simp [single, run] at h

/-- No token that stays on its line holds a line break. -/
theorem newline_not_mem {c : Char} {cs body ahead : List Char} {kind : Token.Kind}
    (h : ofChars c cs = .token kind body ahead) (hkind : kind.staysOnLine = true) :
    '\n' ∉ c :: body := by
  have hc : '\n' ≠ c := by
    rintro rfl
    obtain ⟨rfl, -⟩ : Token.Kind.newline = kind ∧ _ := by simpa [ofChars, single] using h
    simp [Token.Kind.staysOnLine] at hkind
  have hbody : '\n' ∉ body := by
    have hrun : '\n' ∉ cs.takeWhile isSymbolChar := newline_not_mem_takeWhile (by decide) cs
    have hstarts := starts_ofChars c cs
    rw [h] at hstarts
    cases hstarts with
    | comment => exact newline_not_mem_comment h
    | keyword | number | symbol => exact hrun
    | mark _ _ _ hmark => cases kind <;> simp_all [Token.Kind.isWord, Token.Kind.staysOnLine]
    | _ => simp [Token.Kind.staysOnLine] at hkind
  simp [hc, hbody]

end Lexeme

/-- A standing text that stays on its line holds no line break. -/
theorem Stands.newline_not_mem {kind : Token.Kind} {text : List Char} (h : Stands kind text)
    (hkind : kind.staysOnLine = true) : '\n' ∉ text := by
  obtain ⟨c, body, rfl, hagain⟩ := h
  exact Lexeme.newline_not_mem (hagain [] kind.mayPrecede_nil) hkind

end CljFormat
