/-
CljFormat.Proofs.Token.Join — a scan goes on behind a line break as if it started there.

No token of a source that scans to its end goes on past a line break put behind the source: a run of
symbol characters and a comment end there, and a string or a character literal has ended before. So
the text of two sources on lines of their own scans to the tokens of the first, the line break, and
the tokens of the second in other places (`scan_append_newline`).
-/
import CljFormat.Proofs.Token.Lossless

namespace CljFormat

open Text (isSymbolChar)

/-! ## 1. Lexemes in front of a line break -/

namespace Lexeme

variable {c : Char} {cs : List Char}

theorem run_append_newline (kind : Token.Kind) (cs rest : List Char) :
    run kind (cs ++ '\n' :: rest) = run kind cs := by
  rw [run, run, takeWhile_append_cons (by decide)]

theorem comment_append_newline (lead cs rest : List Char) :
    comment lead (cs ++ '\n' :: rest) = comment lead cs := by
  rw [comment, comment, takeWhile_append_cons (by decide)]

theorem sign_append_newline (cs rest : List Char) : sign (cs ++ '\n' :: rest) = sign cs := by
  have hkind : signKind (cs ++ '\n' :: rest) = signKind cs := by
    cases cs with
    | nil => rfl
    | cons d ds => rfl
  rw [sign_eq_run, sign_eq_run, hkind, run_append_newline]

theorem dispatch_append_newline (cs rest : List Char) :
    dispatch (cs ++ '\n' :: rest) = dispatch cs := by
  cases cs with
  | nil => rfl
  | cons d ds =>
    by_cases hmark : d ∈ dispatchMarks
    · simp only [dispatchMarks, List.mem_cons, List.not_mem_nil, or_false] at hmark
      rcases hmark with rfl | rfl | rfl | rfl | rfl | rfl | rfl | rfl | rfl | rfl | rfl
      case inr.inr.inr.inr.inl =>
        -- Behind `#?` an `@` counts.
        cases ds with
        | nil => rfl
        | cons e es => by_cases he : e = '@' <;> simp [dispatch, he]
      case inr.inr.inr.inr.inr.inr.inr.inr.inr.inl => exact comment_append_newline ['!'] ds rest
      all_goals rfl
    · have hnone : ∀ {tail : List Char}, dispatch (d :: tail) = single .octothorpe := by
        intro tail
        refine dispatch_of_not_mark fun c hc => ?_
        rw [List.head?_cons, Option.mem_def, Option.some.injEq] at hc
        exact hc ▸ hmark
      rw [List.cons_append, hnone, hnone]

/-- A line break behind a source is no part of its last lexeme. -/
theorem ofChars_append_newline {x : Lexeme} (hx : ofChars c cs = x) (h : ∀ cause, x ≠ .fault cause)
    (rest : List Char) : ofChars c (cs ++ '\n' :: rest) = x := by
  subst hx
  unfold ofChars at h ⊢
  split at h
  case h_1 => exact comment_append_newline [] cs rest
  case h_2 =>
    cases hbody : stringBody false cs with
    | none => exact absurd (by simp [hbody]) (h .unclosedString)
    | some body =>
      obtain ⟨after, rfl⟩ := prefix_of_stringBody hbody
      have hlater := stringBody_append hbody (after ++ '\n' :: rest)
      rw [← List.append_assoc] at hlater
      simp only [hlater]
  case h_3 =>
    cases cs with
    | nil => exact absurd rfl (h .bareBackslash)
    | cons d ds =>
      have hstop : isSymbolChar '\n' = false := by decide
      simp only [List.cons_append, takeWhile_append_cons hstop]
  case h_4 => exact run_append_newline .keyword cs rest
  case h_5 => exact run_append_newline .symbol cs rest
  case h_6 => exact dispatch_append_newline cs rest
  case h_7 => exact sign_append_newline cs rest
  case h_8 => exact sign_append_newline cs rest
  case h_21 =>
    simp only [run_append_newline]
  all_goals rfl

/-- A token takes no more than there is. -/
theorem length_body_le {kind : Token.Kind} {body ahead : List Char}
    (h : ofChars c cs = .token kind body ahead) : body.length ≤ cs.length := by
  have hcuts := cuts_ofChars c cs
  rw [h] at hcuts
  cases hcuts with
  | whole _ hcs => simp [hcs]
  | shared _ _ _ => exact Nat.zero_le _

end Lexeme

/-! ## 2. Sources on lines of their own -/

/-- What scans to its end is followed by the line break and by what comes behind it. -/
theorem scanFrom_append_newline {p : Position} {n : Nat} {cs : List Char} (hn : n ≤ cs.length)
    (h : (scanFrom p n cs).ending.fault = none) (rest : List Char) :
    ∃ q, scanFrom p n (cs ++ '\n' :: rest)
      = ⟨(scanFrom p n cs).tokens ++
          ⟨.newline, (scanFrom p n cs).ending.pos, "\n"⟩ :: (scanFrom q 0 rest).tokens,
        (scanFrom q 0 rest).ending⟩ := by
  induction cs generalizing p n with
  | nil =>
    obtain rfl : n = 0 := Nat.le_zero.mp hn
    exact ⟨p.advance '\n', rfl⟩
  | cons c cs ih =>
    cases n with
    | succ n => exact ih (Nat.le_of_succ_le_succ hn) h
    | zero =>
      cases hlexeme : Lexeme.ofChars c cs with
      | fault cause =>
        rw [scanFrom_fault p hlexeme] at h
        simp at h
      | blank =>
        have hagain := Lexeme.ofChars_append_newline hlexeme (by simp) rest
        rw [scanFrom_blank p hlexeme] at h ⊢
        rw [List.cons_append, scanFrom_blank p hagain]
        exact ih (Nat.zero_le _) h
      | token kind body ahead =>
        have hagain := Lexeme.ofChars_append_newline hlexeme (by simp) rest
        rw [scanFrom_token p hlexeme] at h ⊢
        obtain ⟨q, hlater⟩ := ih (Lexeme.length_body_le hlexeme) h
        rw [List.cons_append, scanFrom_token p hagain, hlater]
        exact ⟨q, rfl⟩

/-- The tokens of two sources on lines of their own. -/
theorem scan_append_newline {a : String} (h : (scan a).ending.fault = none) (b : String) :
    ∃ t ts, t.kind = .newline ∧ (scan (a ++ "\n" ++ b)).tokens = (scan a).tokens ++ t :: ts ∧
      ts.map Token.spelling = (scan b).tokens.map Token.spelling ∧
      (scan (a ++ "\n" ++ b)).ending.fault = (scan b).ending.fault := by
  obtain ⟨q, hscan⟩ := scanFrom_append_newline (Nat.zero_le _) h b.toList
  have hchars : a.toList ++ '\n' :: b.toList = (a ++ "\n" ++ b).toList := by simp
  have hlater := spelled_scanFrom b.toList q .start 0
  rw [hchars] at hscan
  exact ⟨_, _, rfl, congrArg Scan.tokens hscan, congrArg Prod.fst hlater,
    (congrArg (fun s => s.ending.fault) hscan).trans (congrArg Prod.snd hlater)⟩

end CljFormat
