/-
CljFormat.Proofs.Reader.FnLiteral — a list behind a `#` is a function literal.

The only rule of the grammar that asks whether a form stands inside a function literal is the one
for function literals themselves. So tokens without one are derived alike outside and inside of one
(`derives_inside`), and a source that is one list is read, behind a `#`, as the function literal
with the items of the list (`read_hash_list`).
-/
import CljFormat.Proofs.Reader.Join

namespace CljFormat

/-- A function literal. -/
def Form.IsFnLiteral {α : Type} : Form α → Prop
  | .seq _ .fnLiteral _ => True
  | _ => False

instance {α : Type} : DecidablePred (Form.IsFnLiteral (α := α))
  | .seq _ .fnLiteral _ => .isTrue trivial
  | .seq _ .list _ | .seq _ (.map _) _ | .seq _ .readerCond _ | .seq _ .readerCondSplice _
  | .seq _ .set _ | .seq _ .vector _ | .atom _ _ | .prefixed _ _ _ => .isFalse id

@[simp] theorem Form.isFnLiteral_located (f : Form Label) :
    f.located.IsFnLiteral ↔ f.IsFnLiteral := by
  cases f with
  | seq l b items => cases b <;> simp [Form.IsFnLiteral]
  | _ => simp [Form.IsFnLiteral]

theorem Form.nodes_located (f : Form Label) : f.located.nodes = f.nodes.map Form.located := by
  induction f using Form.induct with
  | atom l x => rfl
  | prefixed l s body ih => simp [ih]
  | seq l b items ih =>
    simp only [Form.located_seq, Form.nodes_seq, List.map_cons, List.flatMap_map, List.map_flatMap]
    rw [List.flatMap_congr fun f hf => ih f hf]

namespace Reader

variable {inside outer : Bool} {t : Token} {ts : List Token}

/-! ## 1. Inside of a function literal -/

/-- Only a function literal asks where it is opened. -/
theorem openingTokens_inside {b : Bracket} (h : OpeningTokens outer t ts b) (hb : b ≠ .fnLiteral) :
    OpeningTokens inside t ts b := by
  cases h with
  | list ht => exact .list ht
  | vector ht => exact .vector ht
  | map ht => exact .map ht
  | fnLiteral => exact absurd rfl hb
  | readerCond ht hu => exact .readerCond ht hu
  | readerCondSplice ht hu => exact .readerCondSplice ht hu
  | namespacedMap ht hu hv => exact .namespacedMap ht hu hv
  | set ht hu => exact .set ht hu

theorem insideOf_of_ne {b : Bracket} (hb : b ≠ .fnLiteral) (inside : Bool) :
    b.insideOf inside = inside := by
  cases b <;> first | rfl | exact absurd rfl hb

mutual

/-- A form without a function literal in it is derived alike outside and inside of one. -/
theorem derives_inside {ts : List Token} {f : Form Position} (h : Derives outer ts f)
    (hf : ∀ g ∈ f.nodes, ¬ g.IsFnLiteral) : Derives inside ts f :=
  match h with
  | .atom hatom => .atom hatom
  | .prefixed hsigil htrivia hbody hsem =>
    .prefixed hsigil htrivia (derives_inside hbody fun g hg => hf g (Form.mem_nodes_of_body hg))
      hsem
  | @Derives.seq _ _ _ _ _ b items hopening hitems hclose heven => by
    have hb : b ≠ .fnLiteral := by
      rintro rfl
      exact hf _ (Form.self_mem_nodes _) trivial
    have hbelow : ∀ g ∈ items.flatMap Form.nodes, ¬ g.IsFnLiteral := fun g hg =>
      hf g (by rw [Form.nodes_seq]; exact List.mem_cons_of_mem _ hg)
    rw [insideOf_of_ne hb] at hitems
    refine .seq (openingTokens_inside hopening hb) ?_ hclose heven
    rw [insideOf_of_ne hb]
    exact derivesAll_inside hitems hbelow

theorem derivesAll_inside {ts : List Token} {fs : List (Form Position)}
    (h : DerivesAll outer ts fs) (hfs : ∀ g ∈ fs.flatMap Form.nodes, ¬ g.IsFnLiteral) :
    DerivesAll inside ts fs :=
  match h with
  | .nil => .nil
  | .cons hfirst hrest =>
    .cons (derives_inside hfirst fun g hg => hfs g (by simp [hg]))
      (derivesAll_inside hrest fun g hg => hfs g (by
        rw [List.flatMap_cons]
        exact List.mem_append_right _ hg))

end

/-! ## 2. Lists behind a `#` -/

/-- A `#` in front of a parenthesis is the mark of a function literal. -/
theorem spell_hash_paren (cs : List Char) :
    spell ('#' :: '(' :: cs)
      = ((.dispatch .fnLiteral, "#(") :: (spell ('(' :: cs)).1, (spell ('(' :: cs)).2) := by
  have hmark : Lexeme.ofChars '#' ([] ++ '(' :: cs) = .token (.dispatch .fnLiteral) [] ['('] := rfl
  exact spell_token hmark

/-- The tokens of a list are those of a function literal, behind its mark. -/
theorem derives_fnLiteral {m : Token} {pos : Position} {items : List (Form Position)}
    (hm : m.kind = .dispatch .fnLiteral) (h : Derives false ts (.seq pos .list items))
    (hitems : ∀ g ∈ items.flatMap Form.nodes, ¬ g.IsFnLiteral) :
    Derives false (m :: ts) (.seq m.pos .fnLiteral items) := by
  cases h with
  | seq hopening hinner hclose _ =>
    cases hopening with
    | list ht =>
      exact .seq (.fnLiteral rfl hm ht) (derivesAll_inside hinner hitems) hclose (by simp)

/-- A source that is one list without a function literal in it is read, behind a `#`, as the
function literal with the items of the list. -/
theorem read_hash_list {body : String} {d : Document} {l : Label} {items : List (Form Label)}
    (hread : read .everything ("(" ++ body ++ ")") = .ok d)
    (hroots : d.roots = [.seq l .list items])
    (hitems : ∀ g ∈ Form.nodesAll items, ¬ g.IsFnLiteral) :
    ∃ d' l' items', read .everything ("#(" ++ body ++ ")") = .ok d' ∧
      d'.roots = [.seq l' .fnLiteral items'] ∧ items'.map Form.bare = items.map Form.bare := by
  obtain ⟨hcomplete, hderives⟩ := derives_of_read hread
  obtain ⟨hfault, -⟩ := complete_eq_ok.mp hcomplete
  -- The tokens of the list behind a mark with any place: only their spelling counts.
  let mark : Token := ⟨.dispatch .fnLiteral, .start, "#("⟩
  have hliteral : DerivesAll false (mark :: (scan ("(" ++ body ++ ")")).tokens)
      [.seq mark.pos .fnLiteral (items.map Form.located)] := by
    rw [hroots, List.map_singleton, Form.located_seq] at hderives
    have hnodes : ∀ g ∈ (items.map Form.located).flatMap Form.nodes, ¬ g.IsFnLiteral := by
      intro g hg
      obtain ⟨located, hlocated, hg⟩ := List.mem_flatMap.mp hg
      obtain ⟨f, hf, rfl⟩ := List.mem_map.mp hlocated
      rw [Form.nodes_located] at hg
      obtain ⟨k, hk, rfl⟩ := List.mem_map.mp hg
      rw [Form.isFnLiteral_located]
      exact hitems k (Form.mem_nodesAll hf hk)
    generalize (scan ("(" ++ body ++ ")")).tokens = ts at hderives
    cases hderives with
    | cons hlist hnone =>
      cases hnone
      have hfirst := derives_fnLiteral (m := mark) rfl hlist hnodes
      simpa using DerivesAll.cons hfirst .nil
  have hlist : ("(" ++ body ++ ")").toList = '(' :: (body.toList ++ [')']) := by simp
  have hsource : ("#(" ++ body ++ ")").toList = '#' :: '(' :: (body.toList ++ [')']) := by simp
  have hspell : (scan ("#(" ++ body ++ ")")).spelled
      = (mark.spelling :: (scan ("(" ++ body ++ ")")).tokens.map Token.spelling, none) := by
    rw [spelled_scan, hsource, spell_hash_paren, ← hlist, ← spelled_scan, Scan.spelled, hfault]
    rfl
  obtain ⟨hspelling, hfault'⟩ := Prod.mk.injEq .. ▸ hspell
  obtain ⟨τ, hrun, hexp, henc, hbare⟩ := run_respelled (σ := .start) hliteral hspelling rfl rfl
  have hone : τ.roots.map Form.bare
      = [.seq () .fnLiteral (items.map Form.bare)] := by
    simpa [State.start, Function.comp_def] using hbare
  obtain ⟨f, hτ, hf⟩ := List.map_eq_singleton_iff.mp hone
  cases f with
  | seq l' b items' =>
    obtain ⟨rfl, hsame⟩ : b = .fnLiteral ∧ items'.map Form.bare = items.map Form.bare := by
      simpa using hf
    exact ⟨⟨τ.roots.reverse, τ.next⟩, l', items',
      read_eq_ok.mpr ⟨τ, hrun, hfault', hexp, henc, rfl⟩, by rw [hτ]; rfl, hsame⟩
  | atom l' x => simp at hf
  | prefixed l' s body => simp at hf

end Reader

end CljFormat
