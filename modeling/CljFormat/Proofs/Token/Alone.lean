/-
CljFormat.Proofs.Token.Alone — texts that are one token.

A text is one token if it scans to its end and nothing but that token is found (`ScansAs`). Blanks
around the token do not count. For a text between quotes this says that the text is what the string
holds: no quote in it ends the string, and no backslash at its end escapes the closing quote
(`quotable_iff`).
-/
import CljFormat.Proofs.Reader.Derivation
import CljFormat.Proofs.Token.Lossless
import CljFormat.Proofs.Token.StringBody

namespace CljFormat

/-- A text scans to its end, as one token of this kind and text. -/
def ScansAs (text : String) (x : Spelling) : Prop :=
  ∃ t, (scan text).complete = .ok [t] ∧ t.spelling = x

theorem scansAs_iff {text : String} {x : Spelling} :
    ScansAs text x ↔ spell text.toList = ([x], none) := by
  rw [← spelled_scan, Scan.spelled, Prod.mk.injEq]
  constructor
  · rintro ⟨t, ht, rfl⟩
    obtain ⟨hfault, htokens⟩ := Reader.complete_eq_ok.mp ht
    exact ⟨by rw [htokens, List.map_cons, List.map_nil], hfault⟩
  · rintro ⟨htokens, hfault⟩
    obtain ⟨t, ht, rfl⟩ := List.map_eq_singleton_iff.mp htokens
    exact ⟨t, Reader.complete_eq_ok.mpr ⟨hfault, ht⟩, rfl⟩

/-- The text of the token stands by itself. -/
theorem ScansAs.stands {text name : String} {kind : Token.Kind} (h : ScansAs text (kind, name))
    (hkind : kind.isWord = true) : Stands kind name.toList := by
  obtain ⟨t, ht, hspelling⟩ := h
  obtain ⟨rfl, rfl⟩ : t.kind = kind ∧ t.text = name := by simpa [Token.spelling] using hspelling
  have hmem : t ∈ (scan text).tokens := by
    rw [(Reader.complete_eq_ok.mp ht).2]
    exact List.mem_singleton.mpr rfl
  exact stands_of_mem_scan hmem hkind

/-- A text that scans to its end without a token is blank. -/
theorem isBlank_of_spell_eq_nil {cs : List Char} (h : spell cs = ([], none)) :
    ∀ c ∈ cs, Text.isBlank c = true := by
  induction cs with
  | nil => simp
  | cons c cs ih =>
    cases hc : Lexeme.ofChars c cs with
    | blank =>
      rw [spell_blank hc] at h
      simpa using And.intro (Lexeme.isBlank_of_blank hc) (ih h)
    | token kind body ahead =>
      rw [spell, scanFrom_token _ hc] at h
      simp [Scan.spelled] at h
    | fault cause =>
      rw [spell, scanFrom_fault _ hc] at h
      simp [Scan.spelled] at h

/-- Between quotes, a text is one string. -/
def Quotable (s : String) : Prop :=
  ∃ x, ScansAs ("\"" ++ s ++ "\"") (.string, x)

theorem quotable_iff {s : String} : Quotable s ↔ escapeAfter false s.toList = some false := by
  have htext : ("\"" ++ s ++ "\"").toList = '"' :: (s.toList ++ ['"']) := by simp
  constructor
  · rintro ⟨x, hx⟩
    rw [scansAs_iff, htext] at hx
    cases hbody : stringBody false (s.toList ++ ['"']) with
    | none =>
      have hfault : Lexeme.ofChars '"' (s.toList ++ ['"']) = .fault .unclosedString := by
        simp only [Lexeme.ofChars, hbody]
      rw [spell, scanFrom_fault _ hfault] at hx
      simp [Scan.spelled] at hx
    | some body =>
      have htoken : Lexeme.ofChars '"' (s.toList ++ ['"']) = .token .string body [] := by
        simp only [Lexeme.ofChars, hbody]
      obtain ⟨rest, hrest⟩ := Lexeme.prefix_of_stringBody hbody
      rw [hrest] at htoken hx
      rw [spell_token htoken] at hx
      -- Behind the string nothing may follow but blanks, and the text ends in a quote.
      have hnothing : spell rest = ([], none) := by
        simp only [Prod.mk.injEq, List.cons.injEq] at hx
        exact Prod.ext hx.1.2 hx.2
      have hblank := isBlank_of_spell_eq_nil hnothing
      obtain ⟨s', rfl, hs'⟩ := stringBody_eq_some hbody
      cases hlast : rest.getLast? with
      | none =>
        obtain rfl : rest = [] := List.getLast?_eq_none_iff.mp hlast
        rw [List.append_nil, List.append_left_inj] at hrest
        rw [hrest, hs']
      | some d =>
        have hquote : d = '"' := by
          have hends := congrArg List.getLast? hrest
          rw [List.getLast?_append, List.getLast?_append, hlast] at hends
          simpa using hends.symm
        have hd := hblank d (List.mem_of_getLast? hlast)
        rw [hquote] at hd
        exact absurd hd (by decide)
  · intro h
    have hstands : Stands .string ("\"" ++ s ++ "\"").toList := by
      rw [htext]
      exact stands_string_iff.mpr h
    exact ⟨"\"" ++ s ++ "\"", scansAs_iff.mpr (Spells.whole (hstands.spells trivial))⟩

instance (s : String) : Decidable (Quotable s) :=
  decidable_of_iff _ quotable_iff.symm

end CljFormat
