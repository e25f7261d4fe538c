/-
CljFormat.Proofs.Token.Spelling — scanning without places.

What a source scans to does not depend on where scanning starts, the places of the tokens apart. So
a token is looked at as its `spelling`, its kind and text, and a scan as the spellings it yields
with the fault that ends it (`spell`). `spell` has one equation for each thing that can start at a
character, and no position in any of them.

`Spells cs ts rest` says that the characters `cs`, in front of `rest`, are exactly the tokens `ts`,
and leave `rest` to be scanned by itself. That is what printed text is cut into: `Spells.append`
puts two neighbouring stretches together, and what follows a stretch is part of its statement
because a symbol goes on for as long as symbol characters follow.
-/
import CljFormat.Token.Scan

namespace CljFormat

/-- What a token is and what it says, its place apart. -/
abbrev Spelling := Token.Kind × String

/-- What a token is and what it says, its place apart. -/
def Token.spelling (t : Token) : Spelling := (t.kind, t.text)

/-- What a scan yields and the fault that ends it, places apart. -/
def Scan.spelled (s : Scan) : List Spelling × Option ScanFault :=
  (s.tokens.map Token.spelling, s.ending.fault)

/-- What the characters `cs` scan to, places apart. -/
def spell (cs : List Char) : List Spelling × Option ScanFault :=
  (scanFrom .start 0 cs).spelled

/-! ## One equation for each lexeme -/

theorem scanFrom_blank {c : Char} {cs : List Char} (p : Position)
    (h : Lexeme.ofChars c cs = .blank) :
    scanFrom p 0 (c :: cs) = scanFrom (p.advance c) 0 cs := by
  rw [scanFrom, h]

theorem scanFrom_token {c : Char} {cs body ahead : List Char} {kind : Token.Kind} (p : Position)
    (h : Lexeme.ofChars c cs = .token kind body ahead) :
    scanFrom p 0 (c :: cs)
      = ⟨⟨kind, p, String.ofList (c :: body ++ ahead)⟩ ::
          (scanFrom (p.advance c) body.length cs).tokens,
          (scanFrom (p.advance c) body.length cs).ending⟩ := by
  rw [scanFrom, h]

theorem scanFrom_fault {c : Char} {cs : List Char} {cause : ScanFault} (p : Position)
    (h : Lexeme.ofChars c cs = .fault cause) :
    scanFrom p 0 (c :: cs) = ⟨[], p, some cause⟩ := by
  rw [scanFrom, h]

@[simp] theorem scanFrom_nil (p : Position) (n : Nat) : scanFrom p n [] = ⟨[], p, none⟩ := by
  cases n <;> rfl

/-- The characters that belong to the token before are passed over. -/
theorem scanFrom_drop (p : Position) (n : Nat) (cs : List Char) :
    scanFrom p n cs = scanFrom ((cs.take n).foldl Position.advance p) 0 (cs.drop n) := by
  induction cs generalizing p n with
  | nil => simp
  | cons c cs ih =>
    cases n with
    | zero => rfl
    | succ n => exact ih (p.advance c) n

theorem scanFrom_append (p : Position) (body rest : List Char) :
    scanFrom p body.length (body ++ rest) = scanFrom (body.foldl Position.advance p) 0 rest := by
  rw [scanFrom_drop, List.take_left, List.drop_left]

/-- Where scanning starts changes places only. -/
theorem spelled_scanFrom (cs : List Char) (p q : Position) (n : Nat) :
    (scanFrom p n cs).spelled = (scanFrom q n cs).spelled := by
  induction cs generalizing p q n with
  | nil => simp [Scan.spelled]
  | cons c cs ih =>
    cases n with
    | succ n => exact ih _ _ n
    | zero =>
      cases h : Lexeme.ofChars c cs with
      | blank =>
        rw [scanFrom_blank p h, scanFrom_blank q h]
        exact ih _ _ 0
      | token kind body ahead =>
        have hlater := ih (p.advance c) (q.advance c) body.length
        simp only [Scan.spelled, Prod.mk.injEq] at hlater
        rw [scanFrom_token p h, scanFrom_token q h]
        simp only [Scan.spelled, List.map_cons, Token.spelling, Prod.mk.injEq, List.cons.injEq,
          true_and]
        exact hlater
      | fault cause => rw [scanFrom_fault p h, scanFrom_fault q h]; rfl

theorem spelled_scan (source : String) : (scan source).spelled = spell source.toList := rfl

theorem spelled_scanFrom_append (p : Position) (body rest : List Char) :
    (scanFrom p body.length (body ++ rest)).spelled = spell rest := by
  rw [scanFrom_append]
  exact spelled_scanFrom rest _ .start 0

@[simp] theorem spell_nil : spell [] = ([], none) := rfl

theorem spell_blank {c : Char} {cs : List Char} (h : Lexeme.ofChars c cs = .blank) :
    spell (c :: cs) = spell cs := by
  rw [spell, scanFrom_blank _ h]
  exact spelled_scanFrom cs _ _ 0

theorem spell_token {c : Char} {body rest ahead : List Char} {kind : Token.Kind}
    (h : Lexeme.ofChars c (body ++ rest) = .token kind body ahead) :
    spell (c :: (body ++ rest))
      = ((kind, String.ofList (c :: body ++ ahead)) :: (spell rest).1, (spell rest).2) := by
  rw [spell, scanFrom_token _ h]
  have hlater := spelled_scanFrom_append (Position.start.advance c) body rest
  simp only [Scan.spelled] at hlater ⊢
  simp [← hlater, Token.spelling]

/-! ## Stretches of text -/

/-- The characters `cs`, in front of `rest`, are the tokens `ts`. -/
def Spells (cs : List Char) (ts : List Spelling) (rest : List Char) : Prop :=
  spell (cs ++ rest) = (ts ++ (spell rest).1, (spell rest).2)

theorem Spells.nil (rest : List Char) : Spells [] [] rest := rfl

/-- Two neighbouring stretches are the tokens of both. -/
theorem Spells.append {cs ds rest : List Char} {ts us : List Spelling}
    (h : Spells cs ts (ds ++ rest)) (h' : Spells ds us rest) :
    Spells (cs ++ ds) (ts ++ us) rest := by
  unfold Spells at h h' ⊢
  rw [List.append_assoc, h, h']
  simp

theorem Spells.token {c : Char} {body ahead rest : List Char} {kind : Token.Kind}
    (h : Lexeme.ofChars c (body ++ rest) = .token kind body ahead) :
    Spells (c :: body) [(kind, String.ofList (c :: body ++ ahead))] rest :=
  spell_token h

theorem Spells.blank {c : Char} {rest : List Char} (h : Lexeme.ofChars c rest = .blank) :
    Spells [c] [] rest :=
  spell_blank h

/-- A whole text scans to its end. -/
theorem Spells.whole {cs : List Char} {ts : List Spelling} (h : Spells cs ts []) :
    spell cs = (ts, none) := by
  unfold Spells at h
  simpa using h

end CljFormat
