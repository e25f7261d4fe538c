/-
CljFormat.Proofs.Token.Stream — a stream gives the tokens of its scan, however it is asked.

A stream reads its source piece by piece, and what it has still to answer is the scan of the piece
that is left (`TokenStream.remaining`). One answer takes the first of these away (`Serves`). This
holds of a stream that is to read a keyword too: a `#:` leaves the colon that it has shown, so that
the keyword is what would be read there anyhow (`readKeyword_eq`).

`Yielded ts k s` says that `s` has given the first `k` of the answers `ts`. Both ways of asking lead
from there to `k + 1` with the same answer, and once all answers are given neither changes anything
(`Yielded.step`). So what was asked for before matters only in how many answers it has brought
(`Yielded.after`), and the two ways may be mixed at will (`answers_mixed`).
-/
import CljFormat.Proofs.Token.Lexeme
import CljFormat.Token.Stream

namespace CljFormat

/-! ## 1. The colon behind a dispatch -/

namespace Lexeme

variable {c : Char} {cs body ahead : List Char}

/-- A `#:` takes its `#` and leaves the colon. -/
theorem colon_of_namespacedMap
    (h : ofChars c cs = .token (.dispatch .namespacedMap) body ahead) :
    body = [] ∧ ∃ rest, cs = ':' :: rest := by
  have hsign : sign cs ≠ .token (.dispatch .namespacedMap) body ahead := by
    rw [sign_eq_run, signKind]
    split <;> simp [run]
  unfold ofChars at h
  split at h
  case h_2 => split at h <;> cases h
  case h_3 => split at h <;> cases h
  case h_6 =>
    unfold dispatch at h
    split at h
    case h_4 =>
      cases h
      exact ⟨rfl, _, rfl⟩
    all_goals simp [comment, single] at h
  case h_7 => exact absurd h hsign
  case h_8 => exact absurd h hsign
  case h_21 =>
    split at h
    · cases h
    · split at h
      · simp [run] at h
      · split at h <;> simp [run] at h
  all_goals simp [comment, run, single] at h

end Lexeme

namespace TokenStream

/-! ## 2. What a stream has still to answer -/

/-- The answers that a stream has not given yet. -/
def remaining (s : TokenStream) : List Signal :=
  match s.mode with
  | .ended _ => []
  | _ => (scanFrom s.pos 0 s.rest).signals

/-- If a stream is to read a keyword, its colon is there. -/
def Ready (s : TokenStream) : Prop :=
  s.mode = .keyword → ∃ cs, s.rest = ':' :: cs

/-- `r` is an answer and the stream behind it: the first of `xs`, and a stream that has the others
still to give. -/
structure Serves (xs : List Signal) (r : Signal × TokenStream) : Prop where
  remaining : xs = r.1 :: r.2.remaining
  ready : r.2.Ready
  /-- The ending is what a stream ends with. -/
  ended : ∀ e, r.2.mode = .ended e → r.1 = .ending e

theorem remaining_taking (n : Nat) (p : Position) (cs : List Char) (kind : Token.Kind) :
    (taking n p cs (.behind kind)).remaining = (scanFrom p n cs).signals := by
  rw [scanFrom_drop, Mode.behind]
  split <;> rfl

theorem behind_eq_keyword_iff {kind : Token.Kind} :
    Mode.behind kind = .keyword ↔ kind = .dispatch .namespacedMap := by
  simp [Mode.behind]

theorem behind_ne_ended (kind : Token.Kind) (e : Scan.Ending) : Mode.behind kind ≠ .ended e := by
  unfold Mode.behind
  split <;> simp

theorem serves_finish (p : Position) (cs : List Char) (fault : Option ScanFault) :
    Serves (Scan.signals ⟨[], p, fault⟩) (finish p cs fault) :=
  ⟨rfl, fun h => Mode.noConfusion h, fun _ h => congrArg Signal.ending (Mode.ended.inj h)⟩

theorem readAny_token {c : Char} {cs body ahead : List Char} {kind : Token.Kind} (p : Position)
    (h : Lexeme.ofChars c cs = .token kind body ahead) :
    readAny p (c :: cs)
      = (.token ⟨kind, p, String.ofList (c :: body ++ ahead)⟩,
          taking body.length (p.advance c) cs (.behind kind)) := by
  rw [readAny, h]

/-- A stream that may read anything answers with the first that the scan from there yields. -/
theorem serves_readAny (p : Position) (cs : List Char) :
    Serves (scanFrom p 0 cs).signals (readAny p cs) := by
  induction cs generalizing p with
  | nil => exact scanFrom_nil p 0 ▸ serves_finish p [] none
  | cons c cs ih =>
    cases hlexeme : Lexeme.ofChars c cs with
    | blank =>
      rw [scanFrom_blank p hlexeme, readAny, hlexeme]
      exact ih (p.advance c)
    | token kind body ahead =>
      rw [scanFrom_token p hlexeme, readAny_token p hlexeme]
      refine ⟨?_, fun hmode => ?_, fun e hmode => absurd hmode (behind_ne_ended kind e)⟩
      · rw [remaining_taking]
        rfl
      · -- Only a `#:` is followed by a keyword, and it takes nothing but its `#`.
        obtain rfl := behind_eq_keyword_iff.mp hmode
        obtain ⟨rfl, rest, rfl⟩ := Lexeme.colon_of_namespacedMap hlexeme
        exact ⟨rest, rfl⟩
    | fault cause =>
      rw [scanFrom_fault p hlexeme, readAny, hlexeme]
      exact serves_finish p (c :: cs) (some cause)

/-- The keyword behind a `#:` is what would be read there anyhow. -/
theorem readKeyword_eq (p : Position) (cs : List Char) :
    readKeyword p (':' :: cs) = readAny p (':' :: cs) := by
  have hlexeme : Lexeme.ofChars ':' cs
      = .token .keyword (cs.takeWhile Text.isSymbolChar) [] := rfl
  have htext : (':' :: cs).take ((cs.takeWhile Text.isSymbolChar).length + 1)
      = ':' :: cs.takeWhile Text.isSymbolChar := by
    rw [List.take_succ_cons, ← List.prefix_iff_eq_take.mp (List.takeWhile_prefix _)]
  rw [readAny_token p hlexeme, List.append_nil, readKeyword, List.tail_cons, htext]
  rfl

/-- A stream that has not ended answers with the first of what it has still to answer. -/
theorem serves_pull {s : TokenStream} (hready : s.Ready) (hmode : ∀ e, s.mode ≠ .ended e) :
    Serves s.remaining s.pull := by
  obtain ⟨p, cs, mode⟩ := s
  cases mode with
  | any => exact serves_readAny p cs
  | keyword =>
    obtain ⟨rest, rfl⟩ := hready rfl
    show Serves _ (readKeyword p (':' :: rest))
    rw [readKeyword_eq]
    exact serves_readAny p (':' :: rest)
  | ended e => exact absurd rfl (hmode e)

/-! ## 3. Asking over and over -/

/-- The answers of a stream that is asked `n` times, up to the first time that it has none. -/
def answers : (n : Nat) → TokenStream → List Signal
  | 0, _ => []
  | n + 1, s =>
    match s.next? with
    | (some x, rest) => x :: answers n rest
    | (none, _) => []

/-- The two ways of asking. -/
inductive Ask
  | pull | next
deriving DecidableEq, Repr

/-- What a stream answers, if anything, and what becomes of it. -/
def ask (s : TokenStream) : Ask → Option Signal × TokenStream
  | .pull => (some s.pull.1, s.pull.2)
  | .next => s.next?

/-- The stream that has been asked for all of this. -/
def after (s : TokenStream) (asks : List Ask) : TokenStream :=
  asks.foldl (fun s a => (s.ask a).2) s

/-- What a stream answers each time. -/
def replies (s : TokenStream) : List Ask → List (Option Signal)
  | [] => []
  | a :: later => (s.ask a).1 :: replies (s.ask a).2 later

theorem pull_of_ended {s : TokenStream} {e : Scan.Ending} (h : s.mode = .ended e) :
    s.pull = (.ending e, s) := by
  simp only [pull, h]

theorem next?_of_ended {s : TokenStream} {e : Scan.Ending} (h : s.mode = .ended e) :
    s.next? = (none, s) := by
  simp only [next?, h]

theorem next?_eq {s : TokenStream} (hmode : ∀ e, s.mode ≠ .ended e) :
    s.next? = (some s.pull.1, s.pull.2) := by
  obtain ⟨p, cs, mode⟩ := s
  cases mode with
  | ended e => exact absurd rfl (hmode e)
  | _ => rfl

theorem remaining_of_ended {s : TokenStream} {e : Scan.Ending} (h : s.mode = .ended e) :
    s.remaining = [] := by
  simp only [remaining, h]

/-- Asked for long enough, a stream gives all answers that it has. -/
theorem answers_of_ready {s : TokenStream} (hready : s.Ready) (n : Nat) :
    answers n s = s.remaining.take n := by
  induction n generalizing s with
  | zero => rfl
  | succ n ih =>
    rw [answers]
    by_cases hended : ∃ e, s.mode = .ended e
    · obtain ⟨e, he⟩ := hended
      rw [next?_of_ended he, remaining_of_ended he, List.take_nil]
    · have hserves := serves_pull hready (not_exists.mp hended)
      rw [next?_eq (not_exists.mp hended), hserves.remaining, List.take_succ_cons,
        ← ih hserves.ready]

/-- A stream that has answered nothing yet gives its scan. -/
theorem answers_eq_take (n : Nat) (p : Position) (cs : List Char) :
    answers n ⟨p, cs, .any⟩ = (scanFrom p 0 cs).signals.take n :=
  answers_of_ready (fun h => Mode.noConfusion h) n

/-- Of the answers `ts` the stream has given the first `k`. -/
structure Yielded (ts : List Signal) (k : Nat) (s : TokenStream) : Prop where
  le : k ≤ ts.length
  remaining : s.remaining = ts.drop k
  ready : s.Ready
  ended : ∀ e, s.mode = .ended e → ts.getLast? = some (.ending e)

variable {ts : List Signal} {k : Nat} {s : TokenStream}

/-- What a stream does when it is asked: it gives the next answer, whichever way it is asked, or it
has given them all and stays as it is. -/
theorem Yielded.step (h : Yielded ts k s) :
    (∃ x, ts[k]? = some x ∧ s.pull.1 = x ∧ s.next? = (some x, s.pull.2) ∧
      Yielded ts (k + 1) s.pull.2) ∨
    (k = ts.length ∧ ∃ e, ts.getLast? = some (.ending e) ∧ s.pull = (.ending e, s) ∧
      s.next? = (none, s)) := by
  by_cases hended : ∃ e, s.mode = .ended e
  · obtain ⟨e, he⟩ := hended
    have hnone : ts.drop k = [] := h.remaining ▸ remaining_of_ended he
    have hk : k = ts.length := Nat.le_antisymm h.le (List.drop_eq_nil_iff.mp hnone)
    exact .inr ⟨hk, e, h.ended e he, pull_of_ended he, next?_of_ended he⟩
  · have hmode := not_exists.mp hended
    obtain ⟨hremaining, hready, hending⟩ := serves_pull h.ready hmode
    rw [h.remaining] at hremaining
    have hk : ts[k]? = some s.pull.1 := by
      rw [← List.head?_drop, hremaining, List.head?_cons]
    have hlater : s.pull.2.remaining = ts.drop (k + 1) := by
      rw [← List.tail_drop, hremaining, List.tail_cons]
    obtain ⟨hlt, -⟩ := List.getElem?_eq_some_iff.mp hk
    refine .inl ⟨_, hk, rfl, next?_eq hmode, hlt, hlater, hready, fun e he => ?_⟩
    -- Behind the ending nothing remains, so that it is the last of the answers.
    rw [remaining_of_ended he] at hlater
    have hlast : ts.length = k + 1 := Nat.le_antisymm (List.drop_eq_nil_iff.mp hlater.symm) hlt
    rw [List.getLast?_eq_getElem?, hlast, Nat.add_sub_cancel, hk, hending e he]

theorem yielded_ofSource (source : String) : Yielded (scan source).signals 0 (ofSource source) :=
  ⟨Nat.zero_le _, rfl, fun h => Mode.noConfusion h, fun _ h => Mode.noConfusion h⟩

/-- However a stream is asked, what matters is how many answers it has given. -/
theorem Yielded.after (h : Yielded ts k s) (asks : List Ask) :
    Yielded ts (min (k + (s.replies asks).countP Option.isSome) ts.length) (s.after asks) := by
  induction asks generalizing k s with
  | nil =>
    rw [replies, List.countP_nil, Nat.add_zero, Nat.min_eq_left h.le]
    exact h
  | cons a asks ih =>
    show Yielded ts _ ((s.ask a).2.after asks)
    rw [replies, List.countP_cons]
    obtain ⟨x, -, hpull, hnext, hlater⟩ | ⟨hk, e, -, hpull, hnext⟩ := h.step
    · have hask : s.ask a = (some x, s.pull.2) := by
        cases a with
        | pull => rw [ask, hpull]
        | next => exact hnext
      have hcount := ih hlater
      rw [hask, Option.isSome_some, if_pos rfl]
      rwa [Nat.add_right_comm, Nat.add_assoc] at hcount
    · -- Nothing is left to give, so that no more asking can raise the count.
      have hstays : (s.ask a).2 = s := by
        cases a with
        | pull => rw [ask, hpull]
        | next => rw [ask, hnext]
      have hcount := ih h
      rw [hstays]
      rw [hk, Nat.min_eq_right (Nat.le_add_right _ _)] at hcount ⊢
      exact hcount

/-- Both ways of asking go through the same answers. With `k` of the answers given, `pull` gives the
next one, or the ending again if there is none, and `next?` gives the next one or nothing. What the
answers are does not depend on how they are asked for: they are those of a stream that is only asked
for what comes next. -/
theorem answers_mixed (source : String) :
    (∀ n, (scan source).signals.length ≤ n →
      answers n (ofSource source) = (scan source).signals) ∧
    ∀ asks : List Ask, ∃ k,
      k = min (((ofSource source).replies asks).countP Option.isSome)
        (scan source).signals.length ∧
      ((ofSource source).after asks).pull.1
        = (scan source).signals.getD k (.ending (scan source).ending) ∧
      ((ofSource source).after asks).next?.1 = (scan source).signals[k]? := by
  refine ⟨fun n hn => ?_, fun asks => ⟨_, rfl, ?_⟩⟩
  · rw [ofSource, answers_eq_take]
    exact List.take_of_length_le hn
  · have hafter := (yielded_ofSource source).after asks
    rw [Nat.zero_add] at hafter
    have hlast : (scan source).signals.getLast? = some (.ending (scan source).ending) :=
      List.getLast?_concat
    rw [List.getD_eq_getElem?_getD]
    obtain ⟨x, hx, hpull, hnext, -⟩ | ⟨hk, e, he, hpull, hnext⟩ := hafter.step
    · rw [hx, hpull, hnext]
      exact ⟨rfl, rfl⟩
    · have hending : Signal.ending e = .ending (scan source).ending :=
        Option.some.inj (he.symm.trans hlast)
      rw [List.getElem?_eq_none (Nat.le_of_eq hk.symm), hpull, hnext, hending]
      exact ⟨rfl, rfl⟩

/-- The stream of `#:a` has three answers, the last of which is the ending. Asked twice it has this
one left, and asked four times nothing more than this one again. -/
theorem answers_mixed_namespace :
    ((scan "#:a").signals.length ≤ 3 ∧ answers 3 (ofSource "#:a") = (scan "#:a").signals) ∧
    ((ofSource "#:a").after [.next, .pull]).next?.1 = some (.ending ⟨⟨3, 1, 4⟩, none⟩) ∧
    ((ofSource "#:a").after [.next, .pull, .next, .pull]).pull.1 = .ending ⟨⟨3, 1, 4⟩, none⟩ ∧
    ((ofSource "#:a").after [.next, .pull, .next, .pull]).next?.1 = none := by
  obtain ⟨hall, hmixed⟩ := answers_mixed "#:a"
  have hlength : (scan "#:a").signals.length ≤ 3 := by decide
  obtain ⟨_, rfl, -, htwice⟩ := hmixed [.next, .pull]
  obtain ⟨_, rfl, hagain, hnone⟩ := hmixed [.next, .pull, .next, .pull]
  exact ⟨⟨hlength, hall 3 hlength⟩, htwice.trans (by decide), hagain.trans (by decide),
    hnone.trans (by decide)⟩

end TokenStream

end CljFormat
