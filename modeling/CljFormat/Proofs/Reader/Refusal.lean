/-
CljFormat.Proofs.Reader.Refusal — errors that stay whatever is written behind them.

Some faults are about the end of a source: a string or a form is not closed yet, or a backslash has
nothing behind it. All others are found at a character or a token that no later text can change. A
line break ends whatever token stands before it, so the tokens of a source come first among the
tokens of the source with more lines behind it, up to the fault if the scan finds one
(`scanFrom_newline`). The reader takes the same steps over them and refuses the same token.

Hence a source that is refused for such a fault is refused for it at the same place when lines are
added (`read_newline_of_refused`).
-/
import CljFormat.Proofs.Reader.Run
import CljFormat.Proofs.Token.Faults
import CljFormat.Proofs.Token.Join

namespace CljFormat

/-! ## 1. Scans -/

/-- The fault says that the source ends too early. -/
def ScanFault.AtEnd : ScanFault → Prop
  | .unclosedString | .bareBackslash => True
  | .unreadableDispatch | .unrecognized _ => False

variable {c : Char} {cs : List Char} {cause : ScanFault}

theorem Lexeme.comment_ne_fault (lead : List Char) : comment lead cs ≠ .fault cause := by
  simp [comment]

/-- A fault that is not about the end is found in front of a line break as well. -/
theorem Lexeme.fault_append_newline (h : ofChars c cs = .fault cause) (hend : ¬ cause.AtEnd)
    (rest : List Char) : ofChars c (cs ++ '\n' :: rest) = .fault cause := by
  unfold ofChars at h ⊢
  split at h
  case h_1 => exact absurd h (comment_ne_fault [])
  case h_2 =>
    split at h
    · cases h
    · cases h
      exact absurd trivial hend
  case h_3 =>
    split at h
    · cases h
    · cases h
      exact absurd trivial hend
  case h_4 => exact absurd h (run_ne_fault .keyword)
  case h_5 => exact absurd h (run_ne_fault .symbol)
  case h_6 => exact (dispatch_append_newline cs rest).trans h
  case h_7 => exact (sign_append_newline cs rest).trans h
  case h_8 => exact (sign_append_newline cs rest).trans h
  case h_21 => simpa only [run_append_newline] using h
  all_goals cases h

/-- Behind a line break, no token of a scan is another one, and no fault that it stops at is
mended unless it is about the end. -/
theorem scanFrom_newline {p : Position} {n : Nat} (hn : n ≤ cs.length) (rest : List Char) :
    (scanFrom p n cs).tokens <+: (scanFrom p n (cs ++ '\n' :: rest)).tokens ∧
      ∀ cause, (scanFrom p n cs).ending.fault = some cause → ¬ cause.AtEnd →
        scanFrom p n (cs ++ '\n' :: rest) = scanFrom p n cs := by
  induction cs generalizing p n with
  | nil =>
    obtain rfl : n = 0 := Nat.le_zero.mp hn
    exact ⟨List.nil_prefix, fun cause h => by cases h⟩
  | cons c cs ih =>
    cases n with
    | succ n => exact ih (Nat.le_of_succ_le_succ hn)
    | zero =>
      cases hlexeme : Lexeme.ofChars c cs with
      | fault cause =>
        rw [scanFrom_fault p hlexeme]
        refine ⟨List.nil_prefix, fun cause' h hend => ?_⟩
        obtain rfl : cause = cause' := Option.some.inj h
        have hagain := Lexeme.fault_append_newline hlexeme hend rest
        rw [List.cons_append, scanFrom_fault p hagain]
      | blank =>
        have hagain := Lexeme.ofChars_append_newline hlexeme (by simp) rest
        rw [List.cons_append, scanFrom_blank p hlexeme, scanFrom_blank p hagain]
        exact ih (Nat.zero_le _)
      | token kind body ahead =>
        have hagain := Lexeme.ofChars_append_newline hlexeme (by simp) rest
        obtain ⟨htokens, hfault⟩ := @ih (p.advance c) body.length (Lexeme.length_body_le hlexeme)
        rw [List.cons_append, scanFrom_token p hlexeme, scanFrom_token p hagain]
        refine ⟨List.prefix_cons_inj _ |>.mpr htokens, fun cause h hend => ?_⟩
        rw [hfault cause h hend]

/-! ## 2. Sources -/

namespace Reader

variable {options : Options} {σ : State} {source : String} {e : SyntaxError}

theorem run_append_error {ts : List Token} (h : run options σ ts = .error e) (us : List Token) :
    run options σ (ts ++ us) = .error e := by
  rw [run_append, h]
  rfl

theorem fault_of_finish {pos : Position} (h : σ.finish pos = .error e) :
    e.fault = .read .unexpectedEnd := by
  unfold State.finish at h
  split at h
  · cases h
  · exact (Except.error.inj h) ▸ rfl
  · exact (Except.error.inj h) ▸ rfl

/-- An error of the scan that is about the end of the source is one of two. -/
theorem detail_of_atEnd {cause : ScanFault} (h : e.fault = .scan cause) (hend : cause.AtEnd) :
    e.detail = "reached EOF before string closing quote" ∨
      e.stage = "lex" ∧ e.detail = "invalid character literal" := by
  unfold SyntaxError.detail SyntaxError.stage
  rw [h]
  cases cause with
  | unclosedString => exact .inl rfl
  | bareBackslash => exact .inr ⟨rfl, rfl⟩
  | unreadableDispatch => exact hend.elim
  | unrecognized c => exact hend.elim

/-- A source that is refused, and not for its end, is refused with the same error at the same place
whatever lines are added to it. -/
theorem read_newline_of_refused (h : read options source = .error e)
    (hopen : e.detail ≠ "unexpected EOF")
    (hquote : e.detail ≠ "reached EOF before string closing quote")
    (hbackslash : ¬ (e.stage = "lex" ∧ e.detail = "invalid character literal")) (u : String) :
    read options (source ++ "\n" ++ u) = .error e := by
  obtain ⟨htokens, hscan⟩ := @scanFrom_newline source.toList .start 0 (Nat.zero_le _) u.toList
  have hchars : source.toList ++ '\n' :: u.toList = (source ++ "\n" ++ u).toList := by simp
  rw [hchars] at htokens hscan
  rcases read_eq_error.mp h with hrun | ⟨σ, hrun, hstop | ⟨-, hfinish⟩⟩
  · obtain ⟨later, hlater⟩ := htokens
    have hagain := run_append_error hrun later
    exact read_eq_error.mpr (.inl (hlater ▸ hagain))
  · -- The scan stops at the same character, so that nothing at all is different.
    obtain ⟨cause, hfault, rfl⟩ := Option.map_eq_some_iff.mp hstop
    have hend : ¬ cause.AtEnd := fun hend =>
      (detail_of_atEnd (e := ⟨(scan source).ending.pos, .scan cause⟩) rfl hend).elim hquote
        hbackslash
    have hsame : scan (source ++ "\n" ++ u) = scan source := hscan cause hfault hend
    rw [read, hsame]
    exact h
  · have hdetail : e.detail = "unexpected EOF" := by
      rw [SyntaxError.detail, fault_of_finish hfinish]
      rfl
    exact absurd hdetail hopen

/-- A map with a key too many, in front of a line that would give it a value. -/
theorem read_newline_of_refused_map :
    ∃ e, read .everything "(f \\a #:k\x7b:a 1 :b\x7d" = .error e ∧
      e.detail = "map literal must contain an even number of forms" ∧
      e.pos = ⟨6, 1, 7⟩ ∧
      read .everything ("(f \\a #:k\x7b:a 1 :b\x7d" ++ "\n" ++ "2\x7d)") = .error e :=
  ⟨_, rfl, rfl, rfl, read_newline_of_refused rfl (by decide) (by decide) (by decide) _⟩

end Reader

end CljFormat
