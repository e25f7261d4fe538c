/-
CljFormat.Proofs.Reader.Written — sources by their characters.

`Writes inside fs cs rest` says that the characters `cs` write the forms `fs` and then go on with
`rest`. It has a rule for each thing that can come next: a blank or a comment, which are part of
no form, a string, a keyword, or a sequence with what is written between its delimiters. Forms of
other kinds are written in any way that the grammar allows. Blanks and comments may stand wherever
a form may start, so all layouts of the same forms are covered at once.

What is written is read (`read_of_writes`). The proof follows the rules: up to `rest`, the
characters are tokens, and these are derived as the forms with line breaks and comments in between
(`Yields`).
-/
import CljFormat.Proofs.Reader.CodeOnly
import CljFormat.Proofs.Reader.Join
import CljFormat.Proofs.Reader.Retell
import CljFormat.Proofs.Tags
import Mathlib.Data.List.TakeWhile

namespace CljFormat

open Text (isBlank isSymbolChar)

/-! ## 1. Texts that stand by themselves -/

/-- Without quotes and backslashes, nothing ends a string and nothing is escaped. -/
theorem escapeAfter_of_plain {cs : List Char} (h : ∀ c ∈ cs, c ≠ '"' ∧ c ≠ '\\') :
    escapeAfter false cs = some false := by
  induction cs with
  | nil => rfl
  | cons c cs ih =>
    rw [List.forall_mem_cons] at h
    rw [escapeAfter, if_neg fun hquote => h.1.1 hquote.1, beq_eq_false_iff_ne.mpr h.1.2]
    exact ih h.2

/-- A colon and symbol characters are a keyword. -/
theorem stands_keyword {name : List Char} (h : ∀ c ∈ name, isSymbolChar c = true) :
    Stands .keyword (':' :: name) := by
  refine ⟨':', name, rfl, fun rest hrest => ?_⟩
  have hagain : Lexeme.run .keyword (name.takeWhile isSymbolChar ++ rest)
      = .token .keyword (name.takeWhile isSymbolChar) [] := Lexeme.run_again hrest name
  rwa [List.takeWhile_eq_self_iff.mpr h] at hagain

/-- The characters that a comment starts with. -/
def commentLeads : List (List Char) := [[';'], ['#', '!']]

/-- The rest of a line behind one of them is a comment. -/
theorem stands_comment {lead body : List Char} (hlead : lead ∈ commentLeads)
    (h : ∀ c ∈ body, c ≠ '\r' ∧ c ≠ '\n') : Stands .comment (lead ++ body) := by
  have hbody : body.takeWhile (fun c => c != '\r' && c != '\n') = body :=
    List.takeWhile_eq_self_iff.mpr fun c hc => by simpa using h c hc
  have hagain : ∀ {rest : List Char}, EndsLine rest → ∀ start,
      Lexeme.comment start (body ++ rest) = .token .comment (start ++ body) [] := by
    intro rest hrest start
    have hcomment := Lexeme.comment_again hrest start body
    rwa [hbody] at hcomment
  simp only [commentLeads, List.mem_cons, List.not_mem_nil, or_false] at hlead
  rcases hlead with rfl | rfl
  · exact ⟨';', body, rfl, fun rest hrest => hagain hrest []⟩
  · exact ⟨'#', '!' :: body, rfl, fun rest hrest => hagain hrest ['!']⟩

/-- A standing text is its token, in front of what may follow. -/
theorem Stands.spells_ofList {kind : Token.Kind} {text rest : List Char} (h : Stands kind text)
    (hrest : kind.MayPrecede rest) : Spells text [(kind, String.ofList text)] rest := by
  have hspells := @Stands.spells kind (String.ofList text) rest (by simpa using h) hrest
  rwa [String.toList_ofList] at hspells

namespace Form

variable {α : Type}

/-- Dropping line breaks and comments does not depend on annotations. -/
theorem bare_codeOnly (f : Form α) : f.codeOnly.bare = f.bare.codeOnly := by
  induction f using Form.induct with
  | atom note x => rfl
  | prefixed note s body ih => rw [codeOnly, bare_prefixed, bare_prefixed, codeOnly, ih]
  | seq note b items ih =>
    rw [codeOnly, bare_seq, bare_seq, codeOnly, codeOnlyAll_eq_map, codeOnlyAll_eq_map,
      List.filter_map, List.map_map, List.map_map]
    simp only [Function.comp_def, isSemantic_bare]
    rw [List.map_congr_left fun f hf => ih f (List.mem_filter.mp hf).1]

theorem codeOnlyAll_bare (fs : List (Form α)) :
    (codeOnlyAll fs).map bare = codeOnlyAll (fs.map bare) := by
  simp [codeOnlyAll_eq_map, List.filter_map, Function.comp_def, bare_codeOnly]

/-- Line breaks and comments are no keys or values. -/
theorem countP_isPaired_codeOnlyAll (fs : List (Form α)) :
    (codeOnlyAll fs).countP isPaired = fs.countP isPaired := by
  have hsifted := countP_isPaired_siftAll isSemantic fs
  rw [lost_isSemantic, siftAll_isSemantic] at hsifted
  omega

end Form

/-- A token that is spelled like this. -/
def Token.ofSpelling (x : Spelling) : Token := ⟨x.1, .start, x.2⟩

@[simp] theorem Token.spelling_ofSpelling (x : Spelling) : (Token.ofSpelling x).spelling = x := rfl

namespace Reader

open Form (codeOnlyAll)

/-! ## 2. What is written -/

/-- The characters `cs` write the forms `fs`, inside a function literal or not, and then go on with
`rest`. -/
inductive Writes : (inside : Bool) → List (Form Unit) → (cs rest : List Char) → Prop
  | nil {inside : Bool} {rest : List Char} : Writes inside [] rest rest
  | blank {inside : Bool} {fs : List (Form Unit)} {c : Char} {cs rest : List Char} :
      isBlank c = true → Writes inside fs cs rest → Writes inside fs (c :: cs) rest
  /-- A comment takes the rest of its line. -/
  | comment {inside : Bool} {fs : List (Form Unit)} {lead body cs rest : List Char} :
      lead ∈ commentLeads → (∀ c ∈ body, c ≠ '\r' ∧ c ≠ '\n') → EndsLine cs →
      Writes inside fs cs rest → Writes inside fs (lead ++ body ++ cs) rest
  | string {inside : Bool} {fs : List (Form Unit)} {text : String} {cs rest : List Char} :
      (∀ c ∈ text.toList, c ≠ '"' ∧ c ≠ '\\') → Writes inside fs cs rest →
      Writes inside (.atom () (.string text) :: fs) ('"' :: text.toList ++ '"' :: cs) rest
  | keyword {inside : Bool} {fs : List (Form Unit)} {text : String} {cs rest : List Char} :
      text.toList.head? = some ':' → (∀ c ∈ text.toList.tail, isSymbolChar c = true) →
      EndsRun cs → Writes inside fs cs rest →
      Writes inside (.atom () (.keyword text) :: fs) (text.toList ++ cs) rest
  /-- A map pairs up, and function literals do not nest. -/
  | seq {inside : Bool} {fs items : List (Form Unit)} {b : Bracket} {inner cs rest : List Char} :
      b.Encloses inside items → Writes (b.insideOf inside) items inner (b.closeText.toList ++ cs) →
      Writes inside fs cs rest →
      Writes inside (.seq () b items :: fs) (b.openText.toList ++ inner) rest
  /-- Any other form of code, by tokens from which the grammar derives it. -/
  | other {inside : Bool} {fs : List (Form Unit)} {g : Form Position} {ts : List Token}
      {text cs rest : List Char} :
      Spells text (ts.map Token.spelling) cs → Derives inside ts g → g.isSemantic = true →
      Writes inside fs cs rest → Writes inside (g.codeOnly.bare :: fs) (text ++ cs) rest

/-! ## 3. What is written is derived -/

variable {inside : Bool} {fs items : List (Form Unit)} {b : Bracket} {g : Form Position}
  {ts : List Token} {text inner cs rest : List Char}

/-- Up to `rest`, the characters `cs` are tokens that are derived as forms, the code of which
is `fs`. -/
def Yields (inside : Bool) (fs : List (Form Unit)) (cs rest : List Char) : Prop :=
  ∃ ts gs, spell cs = (ts.map Token.spelling ++ (spell rest).1, (spell rest).2) ∧
    DerivesAll inside ts gs ∧ (codeOnlyAll gs).map Form.bare = fs

theorem Yields.nil : Yields inside [] rest rest :=
  ⟨[], [], rfl, .nil, rfl⟩

theorem Yields.cons (hspells : Spells text (ts.map Token.spelling) cs) (hg : Derives inside ts g)
    (h : Yields inside fs cs rest) :
    Yields inside (if g.isSemantic then g.codeOnly.bare :: fs else fs) (text ++ cs) rest := by
  obtain ⟨us, gs, hspell, hderives, rfl⟩ := h
  refine ⟨ts ++ us, g :: gs, ?_, .cons hg hderives, ?_⟩
  · unfold Spells at hspells
    rw [hspells, hspell, List.map_append, List.append_assoc]
  · rw [codeOnlyAll]
    split <;> rfl

/-- A form in front. -/
theorem Yields.code (hspells : Spells text (ts.map Token.spelling) cs) (hg : Derives inside ts g)
    (hsem : g.isSemantic = true) (h : Yields inside fs cs rest) :
    Yields inside (g.codeOnly.bare :: fs) (text ++ cs) rest := by
  simpa [hsem] using h.cons hspells hg

/-- A token in front that is no code by itself. -/
theorem Yields.trivia {t : Token} {x : Atom} (hspells : Spells text [t.spelling] cs)
    (hx : AtomTokens t [] x) (hsem : (Form.atom t.pos x).isSemantic = false)
    (h : Yields inside fs cs rest) : Yields inside fs (text ++ cs) rest := by
  simpa [hsem] using h.cons hspells (.atom hx)

theorem Yields.blank {c : Char} (hblank : isBlank c = true) (h : Yields inside fs cs rest) :
    Yields inside fs (c :: cs) rest := by
  by_cases hc : c = '\n'
  · subst hc
    have hspells : Spells ['\n'] [(.newline, "\n")] cs := .token rfl
    exact h.trivia (t := Token.ofSpelling (.newline, "\n")) hspells (.newline rfl) rfl
  · obtain ⟨ts, gs, hspell, hrest⟩ := h
    exact ⟨ts, gs, by rw [spell_blank (Lexeme.ofChars_of_isBlank hblank hc cs), hspell], hrest⟩

/-- A text that is one token stands in front. -/
theorem Yields.word {kind : Token.Kind} {x : Atom} (hstands : Stands kind text)
    (hends : kind.MayPrecede cs)
    (hx : AtomTokens (Token.ofSpelling (kind, String.ofList text)) [] x)
    (hsem : (Shape.atom x : Shape (Form Position)).isSemantic = true)
    (h : Yields inside fs cs rest) : Yields inside (.atom () x :: fs) (text ++ cs) rest := by
  have hspells := hstands.spells_ofList hends
  rw [← Token.spelling_ofSpelling (kind, String.ofList text)] at hspells
  exact h.code hspells (.atom hx) hsem

/-- A sequence stands in front. -/
theorem Yields.seq (hb : b.Encloses inside items)
    (hitems : Yields (b.insideOf inside) items inner (b.closeText.toList ++ cs))
    (h : Yields inside fs cs rest) :
    Yields inside (.seq () b items :: fs) (b.openText.toList ++ inner) rest := by
  obtain ⟨us, gs, hspell, hderives, rfl⟩ := h
  obtain ⟨vs, is, hinner, hinnerDerives, rfl⟩ := hitems
  have hopen := b.spells_openText hb inner
  have hclose := b.spells_closeText cs
  unfold Spells at hopen hclose
  have hspelling : (b.openSpellings.map Token.ofSpelling).map Token.spelling = b.openSpellings := by
    simp [Function.comp_def]
  obtain ⟨t, ts, hopening, hopens⟩ := openingTokens_of_spelling hb hspelling
  have heven : ∀ ns, b = .map ns → is.countP Form.isPaired % 2 = 0 := by
    rintro ns rfl
    have hcount := hb.1
    rwa [List.countP_map, Function.comp_def, funext Form.isPaired_bare,
      Form.countP_isPaired_codeOnlyAll] at hcount
  have hseq : Derives inside (t :: ts ++ vs ++ [Token.ofSpelling b.closeSpelling])
      (.seq t.pos b is) := .seq hopens hinnerDerives rfl heven
  have hfront : b.openSpellings = (t :: ts).map Token.spelling := by rw [← hopening, hspelling]
  refine ⟨_, _, ?_, .cons hseq hderives, ?_⟩
  · rw [hopen, hinner, hclose, hspell, hfront]
    simp
  · have hsem : (Form.seq t.pos b is).isSemantic = true := rfl
    rw [codeOnlyAll, if_pos hsem, Form.codeOnly, List.map_cons, Form.bare_seq]

/-- What is written is derived. -/
theorem yields_of_writes (h : Writes inside fs cs rest) : Yields inside fs cs rest := by
  induction h with
  | nil => exact .nil
  | blank hblank _ ih => exact ih.blank hblank
  | @comment _ _ lead body cs _ hlead hbody hline _ ih =>
    have hspells : Spells (lead ++ body) [(.comment, String.ofList (lead ++ body))] cs :=
      (stands_comment hlead hbody).spells_ofList hline
    exact ih.trivia (t := Token.ofSpelling (.comment, String.ofList (lead ++ body))) hspells
      (.comment rfl) rfl
  | @string _ _ text cs _ hplain _ ih =>
    have hquoted : String.ofList (quotedChars text) = "\"" ++ text ++ "\"" := by
      rw [← String.toList_inj]
      simp [quotedChars]
    have hatom : AtomTokens (Token.ofSpelling (.string, String.ofList (quotedChars text))) []
        (.string text) := by
      have htoken := @AtomTokens.string
        (Token.ofSpelling (.string, String.ofList (quotedChars text))) rfl
      rwa [Token.ofSpelling, hquoted, unquote_quoted, ← hquoted] at htoken
    have hyields := ih.word (stands_string_iff.mpr (escapeAfter_of_plain hplain)) trivial hatom rfl
    simpa [quotedChars] using hyields
  | @keyword _ _ text cs _ hcolon hname hends _ ih =>
    have hatom : AtomTokens (Token.ofSpelling (.keyword, String.ofList text.toList)) []
        (.keyword text) := by
      have htoken := AtomTokens.keyword (t := Token.ofSpelling (.keyword, text)) rfl
      rwa [String.ofList_toList]
    have hstands := stands_keyword hname
    rw [List.cons_head?_tail hcolon] at hstands
    exact ih.word hstands hends hatom rfl
  | seq hb _ _ ihitems ih => exact .seq hb ihitems ih
  | other hspells hg hsem _ ih => exact ih.code hspells hg hsem

/-- What is written is read, without its line breaks and comments. -/
theorem read_of_writes {source : String} (h : Writes false fs source.toList []) :
    ∃ d, read {} source = .ok d ∧ d.roots.map Form.bare = fs := by
  obtain ⟨ts, gs, hspell, hderives, rfl⟩ := yields_of_writes h
  rw [← spelled_scan, spell_nil, List.append_nil, Scan.spelled, Prod.mk.injEq] at hspell
  obtain ⟨σ, hrun, hexp, henc, hroots⟩ :=
    run_respelled (σ := State.start) hderives hspell.1 rfl rfl
  have hread : read .everything source = .ok ⟨σ.roots.reverse, σ.next⟩ :=
    read_eq_ok.mpr ⟨σ, hrun, hspell.2, hexp, henc, rfl⟩
  refine ⟨Document.codeOnly ⟨σ.roots.reverse, σ.next⟩, ?_, ?_⟩
  · exact (read_codeOnly false source).trans (congrArg (Except.map Document.codeOnly) hread)
  · rw [Document.codeOnly, Form.codeOnlyAll_bare, Form.codeOnlyAll_bare, List.map_reverse, hroots]
    simp [State.start]

end Reader

end CljFormat
