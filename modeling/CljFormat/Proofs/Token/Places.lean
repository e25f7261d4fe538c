/-
CljFormat.Proofs.Token.Places — the places that a scan gives are exact.

A place says three things of the text before it: how many bytes it has, how many line breaks, and
how many bytes stand behind the last of these (`Position.Behind`). Passing a character keeps all
three right (`Position.Behind.advance`), whatever the character belongs to. A scan starts before the
first character and passes every one of them, so each of its tokens, and its ending, is at a place
behind some beginning of the source (`exact_of_mem_signals`).
-/
import CljFormat.Proofs.Token.Lossless
import Mathlib.Data.List.DropRight

namespace CljFormat

open String (utf8Len)

namespace Position

/-- `p` is the place behind the characters `before`, with which the source starts. -/
structure Behind (before : List Char) (p : Position) : Prop where
  offset : p.offset = utf8Len before
  line : p.line = 1 + before.count '\n'
  /-- The last line of `before` is what stands behind its last line break. -/
  col : p.col = 1 + utf8Len (before.rtakeWhile (· != '\n'))

/-- `p` is a place in `source`: it lies between two of its characters, or at an end. -/
def Exact (source : String) (p : Position) : Prop :=
  ∃ before after : String, source = before ++ after ∧ p.Behind before.toList

theorem behind_start : start.Behind [] :=
  ⟨rfl, rfl, rfl⟩

theorem Behind.advance {before : List Char} {p : Position} (h : p.Behind before) (c : Char) :
    (p.advance c).Behind (before ++ [c]) := by
  have hwidth : ∀ cs : List Char, utf8Len (cs ++ [c]) = utf8Len cs + c.utf8Size := by
    intro cs
    rw [String.utf8Len_append, String.utf8Len_cons, String.utf8Len_nil, Nat.zero_add]
  refine ⟨by rw [offset_advance, h.offset, hwidth], ?_, ?_⟩
  · rw [Position.advance, List.count_append, List.count_singleton]
    by_cases hc : c = '\n' <;> simp [hc, h.line, Nat.add_assoc]
  · rw [Position.advance, List.rtakeWhile_concat]
    by_cases hc : c = '\n'
    · simp [hc]
    · simp [hc, h.col, hwidth, Nat.add_assoc]

theorem Behind.exact {source : String} {before after : List Char} {p : Position}
    (h : p.Behind before) (hsource : source.toList = before ++ after) : p.Exact source := by
  refine ⟨String.ofList before, String.ofList after, ?_, by rwa [String.toList_ofList]⟩
  rw [← String.toList_inj, hsource, String.toList_append, String.toList_ofList,
    String.toList_ofList]

end Position

theorem exact_scanFrom {source : String} {before cs : List Char} {p : Position} {n : Nat}
    (hp : p.Behind before) (hsource : source.toList = before ++ cs) :
    ∀ x ∈ (scanFrom p n cs).signals, x.pos.Exact source := by
  induction cs generalizing before p n with
  | nil => exact fun x hx => List.mem_singleton.mp hx ▸ hp.exact hsource
  | cons c cs ih =>
    have hlater : source.toList = (before ++ [c]) ++ cs := by simpa using hsource
    cases n with
    | succ n => exact ih (hp.advance c) hlater
    | zero =>
      cases hlexeme : Lexeme.ofChars c cs with
      | blank =>
        rw [scanFrom_blank p hlexeme]
        exact ih (hp.advance c) hlater
      | token kind body ahead =>
        rw [scanFrom_token p hlexeme, signals_cons]
        exact List.forall_mem_cons.mpr ⟨hp.exact hsource, ih (hp.advance c) hlater⟩
      | fault cause =>
        rw [scanFrom_fault p hlexeme]
        exact fun x hx => List.mem_singleton.mp hx ▸ hp.exact hsource

/-- Every answer of the stream of a source is at an exact place. -/
theorem exact_of_mem_signals (source : String) : ∀ x ∈ (scan source).signals, x.pos.Exact source :=
  exact_scanFrom Position.behind_start rfl

end CljFormat
