/-
CljFormat.Proofs.Token.Faults — a scan stops for one of three reasons.

A string that is never closed, a backslash with nothing behind it, and `#<`: nothing else is
refused. This rests on the character classes and on the characters that `Lexeme.ofChars` tells apart
by themselves. A character that is neither blank nor a symbol character is a delimiter, and each of
the delimiters starts a token (`Lexeme.ofChars_eq_fault_iff`).

When a string is closed is said without the scanner: behind its opening quote stand characters and
escapes, an escape being a backslash with the character behind it, and then a quote
(`ClosesString`). What a scan leaves of its source is therefore known: it is one of the three where
the scan stops early, and else it is empty (`scan_stops`).
-/
import CljFormat.Proofs.Token.Lossless

namespace CljFormat

open String (utf8Len)
open Text (isBlank isSymbolChar)

variable {c : Char} {cs : List Char} {cause : ScanFault}

/-! ## 1. What is refused -/

/-- The characters behind an opening quote close the string: plain characters and escapes come
first, and then a quote. -/
inductive ClosesString : List Char → Prop
  | quote (rest : List Char) : ClosesString ('"' :: rest)
  | plain {c : Char} {cs : List Char} : c ≠ '"' → c ≠ '\\' → ClosesString cs →
      ClosesString (c :: cs)
  | escape (c : Char) {cs : List Char} : ClosesString cs → ClosesString ('\\' :: c :: cs)

/-- No token starts in front of these characters, and they are no blanks. -/
inductive Refused : List Char → ScanFault → Prop
  | unclosedString {cs : List Char} : ¬ ClosesString cs → Refused ('"' :: cs) .unclosedString
  | bareBackslash : Refused ['\\'] .bareBackslash
  | unreadableDispatch (cs : List Char) : Refused ('#' :: '<' :: cs) .unreadableDispatch

/-- The scanner finds the end of a string if there is one. Behind a backslash one character is
passed over, whatever it is. -/
theorem isSome_stringBody (cs : List Char) :
    ((stringBody false cs).isSome ↔ ClosesString cs) ∧
      ((stringBody true cs).isSome ↔ ∃ c rest, cs = c :: rest ∧ ClosesString rest) := by
  induction cs with
  | nil =>
    have hnone : ¬ ClosesString [] := by
      intro h
      cases h
    simp [stringBody, hnone]
  | cons c cs ih =>
    obtain ⟨hplain, hescaped⟩ := ih
    constructor
    · by_cases hquote : c = '"'
      · subst hquote
        exact ⟨fun _ => .quote cs, fun _ => rfl⟩
      rw [stringBody, if_neg fun h => hquote h.1, Option.isSome_map]
      by_cases hback : c = '\\'
      · subst hback
        refine hescaped.trans ⟨?_, ?_⟩
        · rintro ⟨d, rest, rfl, hrest⟩
          exact .escape d hrest
        · intro h
          cases h with
          | plain _ hne _ => exact absurd rfl hne
          | escape d hrest => exact ⟨d, _, rfl, hrest⟩
      · have hnext : (c == '\\' && !false) = false := by simp [hback]
        rw [hnext]
        refine hplain.trans ⟨.plain hquote hback, ?_⟩
        intro h
        cases h with
        | quote => exact absurd rfl hquote
        | plain _ _ hcs => exact hcs
        | escape => exact absurd rfl hback
    · rw [stringBody, if_neg fun h => Bool.noConfusion h.2, Option.isSome_map, Bool.not_true,
        Bool.and_false, hplain]
      constructor
      · exact fun h => ⟨c, cs, rfl, h⟩
      · rintro ⟨d, rest, heq, h⟩
        exact (List.cons.inj heq).2 ▸ h

theorem stringBody_eq_none_iff : stringBody false cs = none ↔ ¬ ClosesString cs := by
  rw [← (isSome_stringBody cs).1, Option.not_isSome_iff_eq_none]

namespace Lexeme

theorem run_ne_fault (kind : Token.Kind) : run kind cs ≠ .fault cause := nofun

theorem dispatch_eq_fault_iff : dispatch cs = .fault cause ↔ Refused ('#' :: cs) cause := by
  constructor
  · intro h
    unfold dispatch at h
    split at h
    case h_12 =>
      injection h with h
      exact h ▸ .unreadableDispatch _
    all_goals cases h
  · intro h
    cases h with
    | unreadableDispatch => rfl

/-- A character that is neither blank nor a delimiter is a symbol character, so no character is
left over. -/
theorem ofChars_eq_fault_iff : ofChars c cs = .fault cause ↔ Refused (c :: cs) cause := by
  constructor
  · intro h
    unfold ofChars at h
    split at h
    case h_2 =>
      split at h
      · cases h
      · next hbody =>
        injection h with h
        exact h ▸ .unclosedString (stringBody_eq_none_iff.mp hbody)
    case h_3 =>
      split at h
      · cases h
      · injection h with h
        exact h ▸ .bareBackslash
    case h_6 => exact dispatch_eq_fault_iff.mp h
    case h_7 => exact absurd (sign_eq_run cs ▸ h) (run_ne_fault _)
    case h_8 => exact absurd (sign_eq_run cs ▸ h) (run_ne_fault _)
    case h_21 =>
      split at h
      · cases h
      · next hblank =>
        split at h
        · cases h
        · split at h
          · cases h
          · next hsymbol =>
            have hdelimiter : c ∈ Text.delimiters := by
              simpa [isSymbolChar, hblank] using hsymbol
            simp_all [Text.delimiters]
    all_goals cases h
  · intro h
    cases h with
    | unclosedString hcs => simp [ofChars, stringBody_eq_none_iff.mpr hcs]
    | bareBackslash => rfl
    | unreadableDispatch => rfl

end Lexeme

/-! ## 2. Where scans stop -/

/-- What a scan leaves of the characters is what it stops at. -/
theorem scanFrom_stops (p : Position) (n : Nat) (cs : List Char) :
    ∃ before after, cs = before ++ after ∧
      p.offset + utf8Len before = (scanFrom p n cs).ending.pos.offset ∧
      (∀ cause, (scanFrom p n cs).ending.fault = some cause ↔ Refused after cause) ∧
      ((scanFrom p n cs).ending.fault = none ↔ after = []) := by
  induction cs generalizing p n with
  | nil =>
    rw [scanFrom_nil]
    exact ⟨[], [], rfl, rfl, fun cause => ⟨nofun, nofun⟩, ⟨fun _ => rfl, fun _ => rfl⟩⟩
  | cons c cs ih =>
    -- One character is passed, and the scan stops where it does behind it.
    have hpass : ∀ n, ∃ before after, c :: cs = before ++ after ∧
        p.offset + utf8Len before = (scanFrom (p.advance c) n cs).ending.pos.offset ∧
        (∀ cause, (scanFrom (p.advance c) n cs).ending.fault = some cause ↔
          Refused after cause) ∧
        ((scanFrom (p.advance c) n cs).ending.fault = none ↔ after = []) := by
      intro n
      obtain ⟨before, after, hcs, hoffset, hfault, hnone⟩ := ih (p.advance c) n
      refine ⟨c :: before, after, by rw [hcs]; rfl, ?_, hfault, hnone⟩
      rw [← hoffset, offset_advance, String.utf8Len_cons]
      omega
    cases n with
    | succ n => exact hpass n
    | zero =>
      cases hlexeme : Lexeme.ofChars c cs with
      | blank => exact scanFrom_blank p hlexeme ▸ hpass 0
      | token kind body ahead => exact scanFrom_token p hlexeme ▸ hpass body.length
      | fault cause =>
        rw [scanFrom_fault p hlexeme]
        refine ⟨[], c :: cs, rfl, rfl, fun cause' => ?_, ⟨nofun, nofun⟩⟩
        rw [← Lexeme.ofChars_eq_fault_iff, hlexeme, Option.some.injEq, Lexeme.fault.injEq]

/-- A scan that stops early stops in front of a string that is never closed, of a backslash that is
the last character, or of `#<`, and says so; else it comes to the end of the source. No character is
refused for itself, wherever it stands. Every character that the scan comes to is part of a token,
or blank. -/
theorem scan_stops (source : String) :
    (∃ before after : String, source = before ++ after ∧
      before.utf8ByteSize = (scan source).ending.pos.offset ∧
      (∀ cause, (scan source).ending.fault = some cause ↔ Refused after.toList cause) ∧
      ((scan source).ending.fault = none ↔ after = "")) ∧
    (∀ c cs x, Lexeme.ofChars c cs ≠ .fault (.unrecognized x)) ∧
    (∀ x, (scan source).ending.fault ≠ some (.unrecognized x)) ∧
    ∀ i c, OccursAt source i (String.singleton c) →
      (∃ t ∈ (scan source).tokens, (Signal.token t).Covers i (i + c.utf8Size)) ∨
      (isBlank c = true ∧ c ≠ '\n') ∨
      ((scan source).ending.fault ≠ none ∧ (scan source).ending.pos.offset ≤ i) := by
  have hlossless := lossless_scan source
  obtain ⟨before, after, hsource, hoffset, hfault, hnone⟩ := scanFrom_stops .start 0 source.toList
  refine ⟨⟨String.ofList before, String.ofList after, ?_, ?_, ?_, ?_⟩, ?_, ?_, ?_⟩
  · rw [← String.toList_inj, String.toList_append, String.toList_ofList, String.toList_ofList]
    exact hsource
  · rw [String.utf8ByteSize_ofList, ← Nat.zero_add (utf8Len before)]
    exact hoffset
  · rw [String.toList_ofList]
    exact hfault
  · rw [← String.toList_inj, String.toList_ofList]
    exact hnone
  · intro c cs x h
    cases Lexeme.ofChars_eq_fault_iff.mp h
  · intro x h
    cases (hfault _).mp h
  · intro i c hc
    by_cases hbefore : i < (scan source).ending.pos.offset
    · by_cases hcovered : ∃ t ∈ (scan source).tokens,
          (Signal.token t).Covers i (i + c.utf8Size)
      · exact .inl hcovered
      · exact .inr (.inl (hlossless.gaps i c hc hbefore fun t ht h => hcovered ⟨t, ht, h⟩))
    · refine .inr (.inr ⟨fun hend => hbefore ?_, Nat.not_lt.mp hbefore⟩)
      -- Nothing stands behind the end of the source.
      obtain ⟨front, back, hsplit, rfl⟩ := hc
      have hpos := c.utf8Size_pos
      rw [hlossless.whole hend, hsplit, String.utf8ByteSize_append, String.utf8ByteSize_append,
        String.utf8ByteSize_singleton]
      omega

end CljFormat
