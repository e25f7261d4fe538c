/-
CljFormat.Proofs.Reader.Sift — reading with options that keep less.

Two readings of one source with different options take the same tokens one by one, and what is open
in one is open in the other. They differ in the forms that are dropped. If the second drops what the
first drops, and whatever does not pass a sieve besides (`Sifts`), then it holds at any time what is
left of the first one's forms when these are sifted, inner sequences first (`Form.sift`). Even the
identities agree, since a form that is dropped still takes a number.

Only a map looks at what it holds: its keys and values have to pair up. A map of which an odd number
does not pass is refused in just one of the readings, and what comes behind it is not compared. In
all other respects the second reading follows from the first (`ofScan_sift`).
-/
import CljFormat.Proofs.Reader.Run

namespace CljFormat

/-! ## 1. Sifted forms -/

namespace Form

variable {α : Type} (sieve : Form α → Bool)

mutual

/-- A form with those items of its sequences that pass the sieve, once they are sifted themselves.
What stands under a sigil stays. -/
def sift : Form α → Form α
  | .atom note x => .atom note x
  | .prefixed note s body => .prefixed note s (sift body)
  | .seq note b items => .seq note b (siftAll items)

/-- Those of neighbouring forms that pass the sieve, once they are sifted themselves. -/
def siftAll : List (Form α) → List (Form α)
  | [] => []
  | f :: rest => if sieve (sift f) then sift f :: siftAll rest else siftAll rest

end

theorem siftAll_eq_filter (fs : List (Form α)) :
    siftAll sieve fs = (fs.map (sift sieve)).filter sieve := by
  induction fs with
  | nil => rfl
  | cons f rest ih => cases hf : sieve (sift sieve f) <;> simp [siftAll, hf, ih]

theorem siftAll_reverse (fs : List (Form α)) :
    siftAll sieve fs.reverse = (siftAll sieve fs).reverse := by
  rw [siftAll_eq_filter, siftAll_eq_filter, List.map_reverse, List.filter_reverse]

@[simp] theorem isSemantic_sift (f : Form α) : (f.sift sieve).isSemantic = f.isSemantic := by
  cases f <;> rfl

@[simp] theorem isPaired_sift (f : Form α) : (f.sift sieve).isPaired = f.isPaired := by
  cases f with
  | prefixed note s body => cases s <;> rfl
  | _ => rfl

/-- How many keys and values among some forms do not pass the sieve. -/
def lost (fs : List (Form α)) : Nat :=
  fs.countP fun f => f.isPaired && !sieve (f.sift sieve)

theorem countP_isPaired_siftAll (fs : List (Form α)) :
    (siftAll sieve fs).countP isPaired + lost sieve fs = fs.countP isPaired := by
  unfold lost
  induction fs with
  | nil => rfl
  | cons f rest ih =>
    cases hf : sieve (f.sift sieve) <;> cases hp : f.isPaired <;> simp [siftAll, hf, hp] <;> omega

end Form

namespace Reader

open Form (sift siftAll siftAll_reverse lost)

/-! ## 2. Sifted states -/

variable {wide narrow : Options} {sieve : Form Label → Bool}

/-- A document with those of its forms that pass the sieve. -/
def Document.sift (sieve : Form Label → Bool) (d : Document) : Document :=
  { d with roots := siftAll sieve d.roots }

/-- An open frame with those of its forms that pass the sieve. -/
def Frame.sift (sieve : Form Label → Bool) : Frame → Frame
  | .bracket b pos opened items => .bracket b pos opened (siftAll sieve items)
  | .sigil s pos => .sigil s pos

/-- A state with those of the forms it holds that pass the sieve. -/
def State.sift (sieve : Form Label → Bool) (σ : State) : State :=
  { σ with
    enclosing := σ.enclosing.map (Frame.sift sieve)
    roots := siftAll sieve σ.roots }

theorem insideFnLiteral_sift (σ : State) :
    (σ.sift sieve).insideFnLiteral = σ.insideFnLiteral := by
  rw [State.insideFnLiteral, State.insideFnLiteral, State.sift, List.any_map]
  congr 1
  funext frame
  cases frame with
  | bracket b pos opened items => cases b <;> rfl
  | sigil s pos => rfl

/-- The options `narrow` keep of what the options `wide` keep just what passes the sieve. -/
def Sifts (wide narrow : Options) (sieve : Form Label → Bool) : Prop :=
  ∀ f : Form Label, narrow.keeps (f.sift sieve) = (wide.keeps f && sieve (f.sift sieve))

/-- A form that is delivered is delivered sifted, or dropped. -/
theorem siftAll_kept (h : Sifts wide narrow sieve) (f : Form Label) (fs : List (Form Label)) :
    siftAll sieve (if wide.keeps f then f :: fs else fs)
      = if narrow.keeps (f.sift sieve) then f.sift sieve :: siftAll sieve fs
        else siftAll sieve fs := by
  rw [h f]
  cases wide.keeps f <;> simp [siftAll]

/-- The innermost bracket is a map that starts at `pos`, and an odd number of its keys and values do
not pass the sieve. -/
def State.Unpairs (sieve : Form Label → Bool) (σ : State) (pos : Position) : Prop :=
  ∃ ns opened items outer, σ.enclosing = .bracket (.map ns) pos opened items :: outer ∧
    lost sieve items % 2 = 1

/-! ## 3. Steps -/

theorem deliver_sift (h : Sifts wide narrow sieve) (roots : List (Form Label)) (next : Nat)
    (f : Form Label) (frames : List Frame) :
    (deliver wide roots next f frames).sift sieve
      = deliver narrow (siftAll sieve roots) next (f.sift sieve)
          (frames.map (Frame.sift sieve)) := by
  induction frames generalizing next f with
  | nil => simp [deliver, State.sift, siftAll_kept h]
  | cons frame outer ih =>
    cases frame with
    | bracket b pos opened items => simp [deliver, State.sift, Frame.sift, siftAll_kept h]
    | sigil s pos =>
      simp only [List.map_cons, Frame.sift, deliver, Form.isSemantic_sift]
      split
      · exact ih (next + 1) (.prefixed ⟨next, pos⟩ s f)
      · rfl

theorem atom_sift (h : Sifts wide narrow sieve) (σ : State) (pos : Position) (x : Atom) :
    (σ.sift sieve).atom narrow pos x = (σ.atom wide pos x).sift sieve :=
  (deliver_sift h σ.roots (σ.next + 1) (.atom ⟨σ.next, pos⟩ x) σ.enclosing).symm

/-- What the second reading does where the first one comes to `r` by the token `t`: it comes to what
is left of that, or `t` ends a map that pairs up in just one of the readings. -/
def Follows (sieve : Form Label → Bool) (σ : State) (t : Token)
    (r r' : Except SyntaxError State) : Prop :=
  r' = r.map (State.sift sieve) ∨
    t.kind = .closing .brace ∧ ∃ pos, σ.Unpairs sieve pos ∧
      (r = refuse pos .oddMap ∨ r' = refuse pos .oddMap)

theorem close_sift (h : Sifts wide narrow sieve) (σ : State) {d : Delimiter} {t : Token}
    (hkind : t.kind = .closing d) :
    Follows sieve σ t (σ.close wide d t) ((σ.sift sieve).close narrow d t) := by
  obtain ⟨frames, expecting, roots, next⟩ := σ
  cases frames with
  | nil => exact .inl rfl
  | cons frame outer =>
    cases frame with
    | sigil s pos => exact .inl rfl
    | bracket b pos opened items =>
      have hdelivered := deliver_sift h roots (next + 1) (.seq ⟨next, pos⟩ b items.reverse) outer
      rw [Form.sift, siftAll_reverse] at hdelivered
      unfold Follows
      simp only [State.close, State.sift, List.map_cons, Frame.sift, List.countP_reverse]
      by_cases hcloser : closerOf b ≠ d
      · rw [if_pos hcloser, if_pos hcloser]
        exact .inl rfl
      · rw [if_neg hcloser, if_neg hcloser]
        cases b with
        | map ns =>
          have hcount := Form.countP_isPaired_siftAll sieve items
          obtain rfl : closerOf (.map ns) = d := by simpa using hcloser
          by_cases hlost : lost sieve items % 2 = 1
          · -- Just one of the two numbers is odd.
            refine .inr ⟨hkind, pos, ⟨ns, opened, items, outer, rfl, hlost⟩, ?_⟩
            by_cases hodd : items.countP Form.isPaired % 2 = 1
            · exact .inl (by simp [hodd])
            · exact .inr (by rw [if_pos]; simp; omega)
          · left
            have hsame : (siftAll sieve items).countP Form.isPaired % 2
                = items.countP Form.isPaired % 2 := by omega
            rw [hsame]
            by_cases hodd : items.countP Form.isPaired % 2 = 1
            · simp [hodd, refuse, Except.map]
            · simpa [hodd, Except.map] using hdelivered.symm
        | _ => exact .inl (congrArg Except.ok hdelivered.symm)

theorem dispatch_sift (σ : State) (pos : Position) (d : Dispatch) :
    (σ.sift sieve).dispatch pos d = (σ.dispatch pos d).map (State.sift sieve) := by
  cases d with
  | fnLiteral =>
    rw [State.dispatch, State.dispatch, insideFnLiteral_sift]
    split <;> rfl
  | _ => rfl

theorem form_sift (h : Sifts wide narrow sieve) (σ : State) (t : Token) :
    Follows sieve σ t (σ.form wide t) ((σ.sift sieve).form narrow t) := by
  have hatom : ∀ x, Follows sieve σ t (.ok (σ.atom wide t.pos x))
      (.ok ((σ.sift sieve).atom narrow t.pos x)) :=
    fun x => .inl (congrArg Except.ok (atom_sift h σ t.pos x))
  obtain ⟨kind, pos, text⟩ := t
  cases kind with
  | closing d => exact close_sift h σ rfl
  | dispatch d => exact .inl (dispatch_sift σ pos d)
  | opening d => cases d <;> exact .inl rfl
  | charLiteral =>
    simp only [State.form]
    split
    · exact hatom _
    · exact .inl rfl
  | atSign | apostrophe | backtick | circumflex | tilde | octothorpe => exact .inl rfl
  | _ => exact hatom _

theorem opener_sift (σ : State) (b : Bracket) (pos : Position) (t : Token) :
    (σ.sift sieve).opener b pos t = (σ.opener b pos t).map (State.sift sieve) := by
  unfold State.opener
  split
  · rfl
  · cases b <;> rfl

theorem step_sift (h : Sifts wide narrow sieve) (σ : State) (t : Token) :
    Follows sieve σ t (σ.step wide t) ((σ.sift sieve).step narrow t) := by
  have hexp : (σ.sift sieve).expecting = σ.expecting := rfl
  unfold State.step
  rw [hexp]
  cases σ.expecting with
  | form => exact form_sift h σ t
  | opener b pos => exact .inl (opener_sift σ b pos t)
  | namespaceName pos =>
    dsimp only
    split <;> exact .inl rfl
  | unquoted pos =>
    dsimp only
    split
    · exact .inl rfl
    · -- Behind a `~` that opens its sigil, no map is innermost.
      rcases form_sift h (σ.push (.sigil .unquote pos)) t with hsame | ⟨-, _, hunpairs, -⟩
      · exact .inl hsame
      · obtain ⟨_, _, _, _, henc, -⟩ := hunpairs
        simp [State.push] at henc
  | regex pos | varName pos | tagName pos =>
    dsimp only
    split
    · exact .inl (congrArg Except.ok (atom_sift h σ pos _))
    · exact .inl rfl

/-! ## 4. Sources -/

/-- Reading the tokens comes to the end of a map that starts at `pos`, and of what the map holds an
odd number of keys and values do not pass the sieve. -/
def UnpairsAmong (options : Options) (sieve : Form Label → Bool) (σ : State) (ts : List Token)
    (pos : Position) : Prop :=
  ∃ before t after τ, ts = before ++ t :: after ∧ run options σ before = .ok τ ∧
    t.kind = .closing .brace ∧ τ.Unpairs sieve pos

theorem run_sift (h : Sifts wide narrow sieve) (σ : State) (ts : List Token) :
    run narrow (σ.sift sieve) ts = (run wide σ ts).map (State.sift sieve) ∨
      ∃ pos, UnpairsAmong wide sieve σ ts pos ∧
        (run wide σ ts = refuse pos .oddMap ∨
          run narrow (σ.sift sieve) ts = refuse pos .oddMap) := by
  induction ts generalizing σ with
  | nil => exact .inl rfl
  | cons t ts ih =>
    rw [run_cons, run_cons]
    rcases step_sift h σ t with hsame | ⟨hkind, pos, hunpairs, hrefused⟩
    · rw [hsame]
      cases hstep : σ.step wide t with
      | error e => exact .inl rfl
      | ok τ =>
        refine (ih τ).imp_right ?_
        rintro ⟨pos, ⟨before, u, after, τ', rfl, hrun, hkind, hunpairs⟩, hrefused⟩
        refine ⟨pos, ⟨t :: before, u, after, τ', rfl, ?_, hkind, hunpairs⟩, hrefused⟩
        rw [run_cons_ok before hstep, hrun]
    · right
      refine ⟨pos, ⟨[], t, ts, σ, rfl, rfl, hkind, hunpairs⟩, ?_⟩
      rcases hrefused with hrefused | hrefused <;> rw [hrefused]
      · exact .inl rfl
      · exact .inr rfl

/-- What is left open at the end of a source does not depend on the sieve. -/
theorem finish_sift (σ : State) (pos : Position) :
    (σ.sift sieve).finish pos = (σ.finish pos).map (Document.sift sieve) := by
  obtain ⟨frames, expecting, roots, next⟩ := σ
  cases expecting with
  | form =>
    match frames with
    | [] => simp [State.finish, State.sift, Except.map, Document.sift, siftAll_reverse]
    | .bracket b pos opened items :: outer => rfl
    | .sigil s pos :: outer => rfl
  | _ => rfl

/-- Reading a source with options that keep less fails as reading it with the others does, or gives
what is left of its forms when these are sifted; unless a map pairs up in just one of the two
readings, and is refused in the other. -/
theorem ofScan_sift (h : Sifts wide narrow sieve) (s : Scan) :
    ofScan narrow s = (ofScan wide s).map (Document.sift sieve) ∨
      ∃ pos, UnpairsAmong wide sieve .start s.tokens pos ∧
        (ofScan wide s = refuse pos .oddMap ∨ ofScan narrow s = refuse pos .oddMap) := by
  have hstart : State.start.sift sieve = State.start := rfl
  have hrun := run_sift h .start s.tokens
  have hfold : ∀ options, s.tokens.foldlM (State.step options) .start
      = run options .start s.tokens := fun _ => rfl
  rw [hstart] at hrun
  unfold ofScan
  rw [hfold narrow, hfold wide]
  rcases hrun with hsame | ⟨pos, hunpairs, hrefused⟩
  · left
    rw [hsame]
    cases run wide .start s.tokens with
    | error e => rfl
    | ok σ =>
      cases hfault : s.ending.error? with
      | some e => rfl
      | none => exact finish_sift σ s.ending.pos
  · refine .inr ⟨pos, hunpairs, ?_⟩
    rcases hrefused with hrefused | hrefused <;> rw [hrefused]
    · exact .inl rfl
    · exact .inr rfl

end Reader

end CljFormat
