/-
CljFormat.Proofs.Token.Lossless — a scan covers its source.

Laid end to end, the tokens of a scan and the blanks between them are the source. Only `#{`, `#(`,
`#"` and `#:` show a character that they leave for the next token, so only there do two tokens lie
on one character. `Tiles` says this as a relation that follows the source from left to right, and
`tiles_scanFrom` that every scan is such a tiling, one case for each thing that can start at a
character (`Lexeme.Cuts`).

What can be asked about places in bytes is then read off the tiling by induction on it: every text
stands where its token says, the offsets increase, no two tokens overlap but where one is shared,
and what no token covers is blank (`Lossless`).
-/
import CljFormat.Proofs.Token.Stream
import Mathlib.Data.String.Basic

namespace CljFormat

open String (utf8Len)
open Text (isBlank isSymbolChar)

/-! ## 1. What a lexeme takes -/

/-- The reader macros that show a character they leave for the next token, with that character. -/
def Dispatch.sharing : List (Dispatch × Char) :=
  [(.set, '{'), (.fnLiteral, '('), (.regex, '"'), (.namespacedMap, ':')]

namespace Lexeme

/-- How the lexeme at `c` cuts off a part of `c :: cs`. -/
inductive Cuts (c : Char) (cs : List Char) : Lexeme → Prop
  | blank : isBlank c = true → c ≠ '\n' → Cuts c cs .blank
  | fault (cause : ScanFault) : Cuts c cs (.fault cause)
  /-- The token is what it takes. -/
  | whole (kind : Token.Kind) {body rest : List Char} : cs = body ++ rest →
      Cuts c cs (.token kind body [])
  /-- The token takes a `#` and also shows what comes next. -/
  | shared {d : Dispatch} {a : Char} {rest : List Char} : (d, a) ∈ Dispatch.sharing → c = '#' →
      cs = a :: rest → Cuts c cs (.token (.dispatch d) [] [a])

variable {c : Char} {cs : List Char}

theorem cuts_single (kind : Token.Kind) : Cuts c cs (single kind) :=
  .whole kind (List.nil_append cs).symm

theorem cuts_run (kind : Token.Kind) : Cuts c cs (run kind cs) :=
  .whole kind List.takeWhile_append_dropWhile.symm

theorem cuts_sign : Cuts c cs (sign cs) := by
  rw [sign_eq_run]
  exact cuts_run _

theorem cuts_comment (lead ds : List Char) (h : cs = lead ++ ds) :
    Cuts c cs (comment lead ds) := by
  have hcs : cs = (lead ++ ds.takeWhile fun c => c != '\r' && c != '\n')
      ++ ds.dropWhile fun c => c != '\r' && c != '\n' := by
    rw [List.append_assoc, List.takeWhile_append_dropWhile, h]
  exact .whole .comment hcs

/-- A string takes what stands in front of what follows it. -/
theorem prefix_of_stringBody {escaped : Bool} {body : List Char}
    (h : stringBody escaped cs = some body) : ∃ rest, cs = body ++ rest := by
  induction cs generalizing escaped body with
  | nil => simp [stringBody] at h
  | cons c cs ih =>
    rw [stringBody] at h
    split at h
    · next hend =>
      obtain ⟨rfl, -⟩ := hend
      injection h with h
      exact ⟨cs, by rw [← h]; rfl⟩
    · obtain ⟨later, hlater, rfl⟩ := Option.map_eq_some_iff.mp h
      obtain ⟨rest, rfl⟩ := ih hlater
      exact ⟨rest, rfl⟩

theorem cuts_dispatch : Cuts '#' cs (dispatch cs) := by
  unfold dispatch
  split
  case h_1 => exact .shared (by decide) rfl rfl
  case h_2 => exact .shared (by decide) rfl rfl
  case h_3 => exact .shared (by decide) rfl rfl
  case h_4 => exact .shared (by decide) rfl rfl
  case h_11 => exact cuts_comment ['!'] _ rfl
  case h_12 => exact .fault _
  all_goals exact .whole _ rfl

/-- Every lexeme cuts off a part of the source. -/
theorem cuts_ofChars (c : Char) (cs : List Char) : Cuts c cs (ofChars c cs) := by
  unfold ofChars
  split
  case h_1 => exact cuts_comment [] cs rfl
  case h_2 =>
    split
    · next body hbody =>
      obtain ⟨rest, rfl⟩ := prefix_of_stringBody hbody
      exact .whole .string rfl
    · exact .fault _
  case h_3 =>
    split
    · exact .whole .charLiteral (congrArg (_ :: ·) List.takeWhile_append_dropWhile.symm)
    · exact .fault _
  case h_4 => exact cuts_run .keyword
  case h_5 => exact cuts_run .symbol
  case h_6 => exact cuts_dispatch
  case h_7 => exact cuts_sign
  case h_8 => exact cuts_sign
  case h_21 =>
    split
    · next hnewline hblank => exact .blank hblank hnewline
    · split
      · exact cuts_run .number
      · split
        · exact cuts_run .symbol
        · exact .fault _
  all_goals exact cuts_single _

end Lexeme

/-! ## 2. Scans as tilings -/

/-- From the byte `o` on, the tokens of a scan and the blanks between them are the characters. -/
inductive Tiles : (o : Nat) → List Char → Scan → Prop
  | done (p : Position) : Tiles p.offset [] ⟨[], p, none⟩
  | fault (p : Position) (cs : List Char) (cause : ScanFault) :
      Tiles p.offset cs ⟨[], p, some cause⟩
  | blank {o : Nat} {c : Char} {cs : List Char} {s : Scan} : isBlank c = true → c ≠ '\n' →
      Tiles (o + c.utf8Size) cs s → Tiles o (c :: cs) s
  | whole {c : Char} {body rest : List Char} {s : Scan} (kind : Token.Kind) (p : Position) :
      Tiles (p.offset + utf8Len (c :: body)) rest s →
      Tiles p.offset (c :: body ++ rest)
        ⟨⟨kind, p, String.ofList (c :: body)⟩ :: s.tokens, s.ending⟩
  | shared {d : Dispatch} {a : Char} {cs : List Char} {s : Scan} (p : Position) :
      (d, a) ∈ Dispatch.sharing → Tiles (p.offset + 1) (a :: cs) s →
      Tiles p.offset ('#' :: a :: cs)
        ⟨⟨.dispatch d, p, String.ofList ['#', a]⟩ :: s.tokens, s.ending⟩

theorem offset_advance (p : Position) (c : Char) :
    (p.advance c).offset = p.offset + c.utf8Size := by
  unfold Position.advance
  split <;> rfl

theorem offset_foldl_advance (p : Position) (cs : List Char) :
    (cs.foldl Position.advance p).offset = p.offset + utf8Len cs := by
  induction cs generalizing p with
  | nil => rfl
  | cons c cs ih =>
    rw [List.foldl_cons, ih, offset_advance, String.utf8Len_cons]
    omega

/-- Every scan tiles what it scans. -/
theorem tiles_scanFrom (p : Position) (cs : List Char) : Tiles p.offset cs (scanFrom p 0 cs) := by
  -- A token takes at least one character, so the length of what is left goes down.
  induction hn : cs.length using Nat.strongRecOn generalizing p cs with
  | ind n ih =>
    cases cs with
    | nil => exact .done p
    | cons c cs =>
      rw [List.length_cons] at hn
      have hcuts := Lexeme.cuts_ofChars c cs
      generalize hlexeme : Lexeme.ofChars c cs = lexeme at hcuts
      cases hcuts with
      | blank hblank hnewline =>
        rw [scanFrom_blank p hlexeme]
        exact .blank hblank hnewline (offset_advance p c ▸ ih cs.length (by omega) _ _ rfl)
      | fault cause =>
        rw [scanFrom_fault p hlexeme]
        exact .fault p _ cause
      | @whole kind body rest hcs =>
        subst hcs
        rw [List.length_append] at hn
        have hlater := ih rest.length (by omega) ((c :: body).foldl Position.advance p) rest rfl
        rw [offset_foldl_advance] at hlater
        rw [scanFrom_token p hlexeme, scanFrom_append, List.append_nil]
        exact .whole kind p hlater
      | @shared d a rest hshares hc hcs =>
        subst hc hcs
        have hlater := ih (a :: rest).length (by omega) (p.advance '#') (a :: rest) rfl
        rw [offset_advance] at hlater
        rw [scanFrom_token p hlexeme]
        exact .shared p hshares hlater

/-! ## 3. Places in a source -/

/-- `text` stands in `source` behind `offset` bytes. -/
def OccursAt (source : String) (offset : Nat) (text : String) : Prop :=
  ∃ before after : String, source = before ++ text ++ after ∧ before.utf8ByteSize = offset

/-- The byte behind the text of an answer. The ending of a scan is no part of the source. -/
def Signal.finish : Signal → Nat
  | .token t => t.pos.offset + t.text.utf8ByteSize
  | .ending e => e.pos.offset

/-- The text of an answer takes the bytes from `first` up to `last`. -/
def Signal.Covers (x : Signal) (first last : Nat) : Prop :=
  x.pos.offset ≤ first ∧ last ≤ x.finish

/-- `x` is a `#{`, `#(`, `#"` or `#:`, and `y` starts at its second character. -/
def Signal.SharesWith (x y : Signal) : Prop :=
  ∃ d a p, (d, a) ∈ Dispatch.sharing ∧ x = .token ⟨.dispatch d, p, String.ofList ['#', a]⟩ ∧
    y.pos.offset = p.offset + 1

/-- An answer reaches over the start of a later one only if it shares its second character with the
very next. -/
def OverlapsShared (xs : List Signal) : Prop :=
  ∀ (i j : Nat) (x y : Signal), xs[i]? = some x → xs[j]? = some y → i < j →
    y.pos.offset < x.finish → j = i + 1 ∧ x.SharesWith y

theorem signals_cons (t : Token) (s : Scan) :
    Scan.signals ⟨t :: s.tokens, s.ending⟩ = .token t :: s.signals := rfl

theorem finish_token (kind : Token.Kind) (p : Position) (text : List Char) :
    (Signal.token ⟨kind, p, String.ofList text⟩).finish = p.offset + utf8Len text := by
  rw [Signal.finish, String.utf8ByteSize_ofList]

/-- What overlaps in a list is the first and something behind it, or two behind the first. -/
theorem overlapsShared_cons {first : Signal} {later : List Signal}
    (hfirst : ∀ (j : Nat) (y : Signal), later[j]? = some y → y.pos.offset < first.finish →
      j = 0 ∧ first.SharesWith y)
    (hlater : OverlapsShared later) : OverlapsShared (first :: later) := by
  intro i j x y hx hy hij hover
  cases j with
  | zero => exact absurd hij (Nat.not_lt_zero i)
  | succ j =>
    rw [List.getElem?_cons_succ] at hy
    cases i with
    | zero =>
      obtain rfl : first = x := by simpa using hx
      obtain ⟨rfl, hshares⟩ := hfirst j y hy hover
      exact ⟨rfl, hshares⟩
    | succ i =>
      rw [List.getElem?_cons_succ] at hx
      obtain ⟨rfl, hshares⟩ := hlater i j x y hx hy (Nat.lt_of_succ_lt_succ hij) hover
      exact ⟨rfl, hshares⟩

theorem overlapsShared_singleton (x : Signal) : OverlapsShared [x] :=
  overlapsShared_cons (fun j y hy => by simp at hy) fun i j x y hx => by simp at hx

/-- The tokens and the ending of a scan leave out nothing of the source but blanks. -/
structure Lossless (source : String) (s : Scan) : Prop where
  /-- There are no more tokens than characters. -/
  few : s.tokens.length ≤ source.length
  /-- The text of a token is what stands at its place, and so is that of the end of the source. -/
  text : ∀ x ∈ s.signals, x.kindName ≠ "error" → OccursAt source x.pos.offset x.text
  /-- Each token starts behind the start of the one before it. -/
  order : s.signals.Pairwise fun x y => x.pos.offset < y.pos.offset
  /-- Tokens overlap where one is shared, and nowhere else. -/
  overlap : OverlapsShared s.signals
  /-- A character in front of the ending that no token covers is blank, but no line break. -/
  gaps : ∀ i c, OccursAt source i (String.singleton c) → i < s.ending.pos.offset →
    (∀ t ∈ s.tokens, ¬ (Signal.token t).Covers i (i + c.utf8Size)) → isBlank c = true ∧ c ≠ '\n'
  /-- A scan without a fault ends behind the last character. -/
  whole : s.ending.fault = none → s.ending.pos.offset = source.utf8ByteSize

namespace Tiles

variable {o : Nat} {cs : List Char} {s : Scan}

theorem length_le (h : Tiles o cs s) : s.tokens.length ≤ cs.length := by
  induction h with
  | done p => exact Nat.le_refl 0
  | fault p cs cause => exact Nat.zero_le _
  | blank _ _ _ ih => exact Nat.le_succ_of_le ih
  | whole kind p _ ih =>
    simp only [List.length_cons, List.length_append]
    omega
  | shared p _ _ ih =>
    simp only [List.length_cons] at ih ⊢
    omega

/-- Nothing in a tiling starts in front of it. -/
theorem le_pos (h : Tiles o cs s) : ∀ x ∈ s.signals, o ≤ x.pos.offset := by
  induction h with
  | done p => exact fun x hx => List.mem_singleton.mp hx ▸ Nat.le_refl _
  | fault p cs cause => exact fun x hx => List.mem_singleton.mp hx ▸ Nat.le_refl _
  | blank _ _ _ ih => exact fun x hx => Nat.le_of_add_right_le (ih x hx)
  | whole kind p _ ih =>
    exact List.forall_mem_cons.mpr ⟨Nat.le_refl _, fun x hx => Nat.le_of_add_right_le (ih x hx)⟩
  | shared p _ _ ih =>
    exact List.forall_mem_cons.mpr ⟨Nat.le_refl _, fun x hx => Nat.le_of_add_right_le (ih x hx)⟩

theorem pairwise (h : Tiles o cs s) :
    s.signals.Pairwise fun x y => x.pos.offset < y.pos.offset := by
  induction h with
  | done p => exact List.pairwise_singleton _ _
  | fault p cs cause => exact List.pairwise_singleton _ _
  | blank _ _ _ ih => exact ih
  | @whole c body rest s kind p hlater ih =>
    refine List.pairwise_cons.mpr ⟨fun x hx => ?_, ih⟩
    have hpos := c.utf8Size_pos
    have hle := hlater.le_pos x hx
    rw [String.utf8Len_cons] at hle
    show p.offset < x.pos.offset
    omega
  | shared p _ hlater ih =>
    exact List.pairwise_cons.mpr ⟨fun x hx => hlater.le_pos x hx, ih⟩

/-- The text of a token is what stands at its place. -/
theorem occurs (h : Tiles o cs s) :
    ∀ t ∈ s.tokens, ∃ before after, cs = before ++ t.text.toList ++ after ∧
      o + utf8Len before = t.pos.offset := by
  induction h with
  | done p => exact fun t ht => absurd ht List.not_mem_nil
  | fault p cs cause => exact fun t ht => absurd ht List.not_mem_nil
  | @blank o c cs s _ _ _ ih =>
    intro t ht
    obtain ⟨before, after, rfl, hoffset⟩ := ih t ht
    refine ⟨c :: before, after, rfl, ?_⟩
    rw [String.utf8Len_cons]
    omega
  | @whole c body rest s kind p _ ih =>
    refine List.forall_mem_cons.mpr ⟨⟨[], rest, by simp, rfl⟩, fun t ht => ?_⟩
    obtain ⟨before, after, rfl, hoffset⟩ := ih t ht
    refine ⟨c :: body ++ before, after, by simp, ?_⟩
    rw [String.utf8Len_append]
    omega
  | @shared d a cs s p _ _ ih =>
    refine List.forall_mem_cons.mpr ⟨⟨[], cs, by simp, rfl⟩, fun t ht => ?_⟩
    obtain ⟨before, after, hcs, hoffset⟩ := ih t ht
    refine ⟨'#' :: before, after, by rw [hcs]; rfl, ?_⟩
    rw [String.utf8Len_cons, show '#'.utf8Size = 1 from rfl]
    omega

/-- A tiling without a fault goes to the end. -/
theorem ending_eq (h : Tiles o cs s) (hfault : s.ending.fault = none) :
    s.ending.pos.offset = o + utf8Len cs := by
  induction h with
  | done p => rfl
  | fault p cs cause => exact absurd hfault (by simp)
  | blank _ _ _ ih =>
    rw [ih hfault, String.utf8Len_cons]
    omega
  | whole kind p _ ih =>
    rw [ih hfault, String.utf8Len_append]
    omega
  | shared p _ _ ih =>
    rw [ih hfault, String.utf8Len_cons '#', show '#'.utf8Size = 1 from rfl]
    omega

/-- Tokens overlap where one is shared, and nowhere else. -/
theorem overlap (h : Tiles o cs s) : OverlapsShared s.signals := by
  induction h with
  | done p => exact overlapsShared_singleton _
  | fault p cs cause => exact overlapsShared_singleton _
  | blank _ _ _ ih => exact ih
  | whole kind p hlater ih =>
    rw [signals_cons]
    refine overlapsShared_cons (fun j y hy hover => ?_) ih
    have hle := hlater.le_pos y (List.mem_of_getElem? hy)
    rw [finish_token] at hover
    exact absurd hle (Nat.not_le.mpr hover)
  | @shared d a cs s p hshares hlater ih =>
    rw [signals_cons]
    refine overlapsShared_cons (fun j y hy hover => ?_) ih
    have hwidth : ∀ e ∈ Dispatch.sharing, e.2.utf8Size = 1 := by decide
    have hle := hlater.le_pos y (List.mem_of_getElem? hy)
    rw [finish_token, String.utf8Len_cons, String.utf8Len_cons, String.utf8Len_nil,
      hwidth _ hshares, show '#'.utf8Size = 1 from rfl] at hover
    have hstart : y.pos.offset = p.offset + 1 := by omega
    refine ⟨?_, d, a, p, hshares, rfl, hstart⟩
    have horder := hlater.pairwise
    cases hsignals : s.signals with
    | nil => simp [hsignals] at hy
    | cons first rest =>
      rw [hsignals] at hy horder
      cases j with
      | zero => rfl
      | succ j =>
        have hfirst := hlater.le_pos first (hsignals ▸ List.mem_cons_self)
        have hless := (List.pairwise_cons.mp horder).1 y (List.mem_of_getElem? hy)
        omega

/-- What no token covers is blank. -/
theorem blank_of_gap (h : Tiles o cs s) {before after : List Char} {c : Char}
    (hcs : cs = before ++ c :: after) (hending : o + utf8Len before < s.ending.pos.offset)
    (hgap : ∀ t ∈ s.tokens, ¬ (Signal.token t).Covers (o + utf8Len before)
      (o + utf8Len before + c.utf8Size)) : isBlank c = true ∧ c ≠ '\n' := by
  induction h generalizing before with
  | done p => simp at hcs
  | fault p cs cause => exact absurd hending (Nat.not_lt.mpr (Nat.le_add_right _ _))
  | @blank o b cs s hblank hnewline _ ih =>
    cases before with
    | nil =>
      obtain ⟨rfl, -⟩ := List.cons.inj hcs
      exact ⟨hblank, hnewline⟩
    | cons b' before =>
      obtain ⟨rfl, htail⟩ := List.cons.inj hcs
      have hshift : o + utf8Len (b :: before) = o + b.utf8Size + utf8Len before := by
        rw [String.utf8Len_cons]
        omega
      rw [hshift] at hending hgap
      exact ih htail hending hgap
  | @whole b body rest s kind p _ ih =>
    obtain ⟨hself, hlater⟩ := List.forall_mem_cons.mp hgap
    rcases List.append_eq_append_iff.mp hcs with ⟨before', rfl, hrest⟩ | ⟨text, hbody, htext⟩
    · rw [String.utf8Len_append, ← Nat.add_assoc] at hending hlater
      exact ih hrest hending hlater
    · cases text with
      | nil =>
        rw [List.append_nil] at hbody
        subst hbody
        have hrest : rest = [] ++ c :: after := htext.symm
        exact ih hrest hending hlater
      | cons c' text =>
        obtain ⟨rfl, -⟩ := List.cons.inj htext
        refine absurd ⟨Nat.le_add_right _ _, ?_⟩ hself
        rw [finish_token, hbody, String.utf8Len_append, String.utf8Len_cons]
        omega
  | @shared d a cs s p _ _ ih =>
    obtain ⟨hself, hlater⟩ := List.forall_mem_cons.mp hgap
    cases before with
    | nil =>
      obtain ⟨rfl, -⟩ := List.cons.inj hcs
      refine absurd ⟨Nat.le_add_right _ _, ?_⟩ hself
      rw [finish_token, String.utf8Len_cons '#', String.utf8Len_nil]
      omega
    | cons b' before =>
      obtain ⟨rfl, htail⟩ := List.cons.inj hcs
      have hshift : p.offset + utf8Len ('#' :: before) = p.offset + 1 + utf8Len before := by
        rw [String.utf8Len_cons, show '#'.utf8Size = 1 from rfl]
        omega
      rw [hshift] at hending hlater
      exact ih htail hending hlater

end Tiles

/-! ## 4. The scan of a source -/

/-- A scan leaves out nothing of its source but blanks. -/
theorem lossless_scan (source : String) : Lossless source (scan source) := by
  have h : Tiles 0 source.toList (scan source) := tiles_scanFrom .start source.toList
  refine ⟨?_, fun x hx herror => ?_, h.pairwise, h.overlap, fun i c hc hending hgap => ?_,
    fun hfault => ?_⟩
  · rw [← String.length_toList]
    exact h.length_le
  · rcases List.mem_append.mp hx with hx | hx
    · obtain ⟨t, ht, rfl⟩ := List.mem_map.mp hx
      obtain ⟨before, after, hsource, hoffset⟩ := h.occurs t ht
      refine ⟨String.ofList before, String.ofList after, ?_, ?_⟩
      · rw [← String.toList_inj, String.toList_append, String.toList_append, String.toList_ofList,
          String.toList_ofList]
        exact hsource
      · rw [String.utf8ByteSize_ofList, ← Nat.zero_add (utf8Len before)]
        exact hoffset
    · obtain rfl := List.mem_singleton.mp hx
      have hfault : (scan source).ending.fault = none := by
        simpa [Signal.kindName] using herror
      refine ⟨source, "", by simp [Signal.text, hfault], ?_⟩
      rw [Signal.pos, h.ending_eq hfault, Nat.zero_add, String.utf8Len_toList]
  · obtain ⟨before, after, rfl, rfl⟩ := hc
    rw [← String.utf8Len_toList, ← Nat.zero_add (utf8Len _)] at hending hgap
    have hsource : (before ++ String.singleton c ++ after).toList
        = before.toList ++ c :: after.toList := by
      rw [String.toList_append, String.toList_append, String.toList_singleton, List.append_assoc]
      rfl
    exact h.blank_of_gap hsource hending hgap
  · rw [h.ending_eq hfault, Nat.zero_add, String.utf8Len_toList]

/-! ## 5. The stream of a source -/

/-- The stream of a source yields its tokens and then the end of the source or an error, at most one
answer more than there are characters, and nothing after that however often it is asked. What it
yields leaves out nothing of the source but blanks. -/
theorem lossless_answers (source : String) :
    ∃ s, Lossless source s ∧ s.signals.length ≤ source.length + 1 ∧
      ∀ n, source.length + 1 ≤ n →
        (TokenStream.ofSource source).answers n
          = s.tokens.map Signal.token ++ [Signal.ending s.ending] := by
  have hlossless := lossless_scan source
  have hlength : (scan source).signals.length ≤ source.length + 1 := by
    rw [Scan.signals, List.length_append, List.length_map]
    exact Nat.succ_le_succ hlossless.few
  refine ⟨scan source, hlossless, hlength, fun n hn => ?_⟩
  rw [TokenStream.ofSource, TokenStream.answers_eq_take]
  exact List.take_of_length_le (Nat.le_trans hlength hn)

end CljFormat
