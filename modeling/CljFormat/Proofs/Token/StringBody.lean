/-
CljFormat.Proofs.Token.StringBody — where a string ends.

A string ends at the first quote that no backslash escapes, so what matters of a stretch of its text
is whether such a quote stands in it, and whether its last backslash escapes what comes next
(`escapeAfter`). A text between quotes is one string token exactly when neither is the case
(`stands_string_iff`).
-/
import CljFormat.Proofs.Token.Lexeme

namespace CljFormat

/-- Whether a backslash escapes what stands behind `cs`, if one escapes its first character or not;
nothing if a quote ends the string inside `cs`. -/
def escapeAfter (escaped : Bool) : List Char → Option Bool
  | [] => some escaped
  | c :: cs =>
    if c = '"' ∧ escaped = false then none else escapeAfter (c == '\\' && !escaped) cs

@[simp] theorem escapeAfter_nil (escaped : Bool) : escapeAfter escaped [] = some escaped := rfl

theorem escapeAfter_append (escaped : Bool) (cs ds : List Char) :
    escapeAfter escaped (cs ++ ds) = (escapeAfter escaped cs).bind fun e => escapeAfter e ds := by
  induction cs generalizing escaped with
  | nil => rfl
  | cons c cs ih =>
    rw [List.cons_append, escapeAfter, escapeAfter]
    split
    · rfl
    · exact ih _

/-- What a string takes ends with its only quote that is not escaped. -/
theorem stringBody_eq_some {escaped : Bool} {cs body : List Char}
    (h : stringBody escaped cs = some body) :
    ∃ s, body = s ++ ['"'] ∧ escapeAfter escaped s = some false := by
  induction cs generalizing escaped body with
  | nil => simp [stringBody] at h
  | cons c cs ih =>
    rw [stringBody] at h
    split at h
    · next hend =>
      injection h with h
      exact ⟨[], by simp [← h], by simp [hend.2]⟩
    · next hend =>
      obtain ⟨later, hlater, rfl⟩ := Option.map_eq_some_iff.mp h
      obtain ⟨s, rfl, hs⟩ := ih hlater
      exact ⟨c :: s, rfl, by rw [escapeAfter, if_neg hend, hs]⟩

theorem stringBody_of_escapeAfter {escaped : Bool} {s : List Char}
    (h : escapeAfter escaped s = some false) (rest : List Char) :
    stringBody escaped (s ++ '"' :: rest) = some (s ++ ['"']) := by
  induction s generalizing escaped with
  | nil =>
    rw [escapeAfter_nil, Option.some.injEq] at h
    simp [stringBody, h]
  | cons c s ih =>
    rw [escapeAfter] at h
    split at h
    · simp at h
    · next hend => rw [List.cons_append, stringBody, if_neg hend, ih h]; rfl

/-- Only a quote starts a string. -/
theorem Lexeme.quote_of_string {c : Char} {cs body ahead : List Char}
    (h : Lexeme.ofChars c cs = .token .string body ahead) :
    c = '"' ∧ stringBody false cs = some body := by
  have hstarts := Lexeme.starts_ofChars c cs
  rw [h] at hstarts
  cases hstarts with
  | string _ hc hbody => exact ⟨hc, hbody⟩
  | mark _ _ _ hkind => simp [Token.Kind.isWord] at hkind

/-- A standing string is a text between quotes. -/
theorem Stands.quotes {text : List Char} (h : Stands .string text) :
    ∃ s, text = '"' :: s ++ ['"'] := by
  obtain ⟨c, body, rfl, hagain⟩ := h
  obtain ⟨rfl, hbody⟩ := Lexeme.quote_of_string (hagain [] trivial)
  obtain ⟨s, rfl, -⟩ := stringBody_eq_some hbody
  exact ⟨s, rfl⟩

/-- A text between quotes is one string when no quote in it ends it and no backslash escapes the
last. -/
theorem stands_string_iff {s : List Char} :
    Stands .string ('"' :: s ++ ['"']) ↔ escapeAfter false s = some false := by
  constructor
  · rintro ⟨c, body, htext, hagain⟩
    rw [List.cons_append, List.cons.injEq] at htext
    obtain ⟨rfl, rfl⟩ := htext
    obtain ⟨-, hbody⟩ := Lexeme.quote_of_string (hagain [] trivial)
    obtain ⟨s', hs, hescape⟩ := stringBody_eq_some hbody
    rw [List.append_left_inj] at hs
    rw [hs, hescape]
  · intro h
    refine ⟨'"', s ++ ['"'], rfl, fun rest _ => ?_⟩
    have hbody := stringBody_of_escapeAfter h rest
    simp only [Lexeme.ofChars, List.append_assoc, List.cons_append, List.nil_append, hbody]

end CljFormat
