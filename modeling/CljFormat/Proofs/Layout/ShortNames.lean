/-
CljFormat.Proofs.Layout.ShortNames — what the short names of a source stand for.

A source gives meanings to short names by its libspecs, the forms behind `:require` in its `ns`
forms. They are taken in order, and of several meanings the last one holds. So a name means what one
libspec says of it if no other libspec binds the name (`meaning?_ofRoots`).

What a libspec says is all or nothing. Its options come in pairs, and each has to be an alias or a
list of referred names (`isKnownOption`). A libspec with any other option is ignored as a whole:
with `[lib :as l :refer :all]` the alias `l` is lost (`namespaceOf_libspec`).

Then a style given to `lib/name` is found by every name that a source has for it: by `l/name` where
`l` is an alias of `lib`, and by `name` where that is referred from `lib` (`style_spellings`).
-/
import CljFormat.Layout.Plan
import CljFormat.Proofs.Reader.Readable
import CljFormat.Proofs.Symbol
import CljFormat.Proofs.Transform

namespace CljFormat.Layout

variable {α : Type}

/-! ## 1. Short names -/

/-- A name that libspecs give a meaning to. -/
inductive ShortName
  /-- A name for a namespace. -/
  | ofNamespace (text : String)
  /-- A name used without its namespace. -/
  | referred (text : String)
deriving DecidableEq, Repr

/-- The namespace that a short name leads to. -/
def Aliases.meaning? (a : Aliases) : ShortName → Option String
  | .ofNamespace text => a.namespaceOf? text
  | .referred text => a.referredFrom? text

/-- A libspec says what a short name means. -/
def Libspec.Binds (spec : Libspec) : ShortName → Prop
  | .ofNamespace text => spec.alias? = some text
  | .referred text => text ∈ spec.referred

instance (spec : Libspec) (short : ShortName) : Decidable (spec.Binds short) :=
  match short with
  | .ofNamespace text => inferInstanceAs (Decidable (spec.alias? = some text))
  | .referred text => inferInstanceAs (Decidable (text ∈ spec.referred))

/-- A form is a libspec that says what a short name means. -/
def Binds (f : Form α) (short : ShortName) : Prop :=
  ∃ spec, Libspec.ofForm? f = some spec ∧ spec.Binds short

variable {a : Aliases} {spec : Libspec} {short : ShortName} {text : String} {f : Form α}
  {fs roots : List (Form α)}

/-- Entries that all lead to one namespace are found before those behind them. -/
theorem lookup_map_append (names : List String) (ns : String) (rest : List (String × String)) :
    (names.map (fun name => (name, ns)) ++ rest).lookup text
      = if text ∈ names then some ns else rest.lookup text := by
  induction names with
  | nil => simp
  | cons name names ih =>
    by_cases h : text = name
    · simp [h]
    · simp [List.lookup_cons, h, ih, beq_false_of_ne h]

theorem meaning?_addLibspec :
    (a.addLibspec spec).meaning? short
      = if spec.Binds short then some spec.namespaceName else a.meaning? short := by
  cases short with
  | ofNamespace text =>
    have hentries : (a.addLibspec spec).aliases
        = spec.alias?.toList.map (fun name => (name, spec.namespaceName)) ++ a.aliases := by
      cases h : spec.alias? <;> simp [Aliases.addLibspec, h]
    rw [Aliases.meaning?, Aliases.namespaceOf?, hentries, lookup_map_append]
    simp only [Option.mem_toList]
    rfl
  | referred text =>
    have hentries : (a.addLibspec spec).referred
        = spec.referred.reverse.map (fun name => (name, spec.namespaceName)) ++ a.referred := by
      simp [Aliases.addLibspec]
    rw [Aliases.meaning?, Aliases.referredFrom?, hentries, lookup_map_append]
    simp only [List.mem_reverse]
    rfl

theorem meaning?_addForm (h : Libspec.ofForm? f = some spec) (hbinds : spec.Binds short) :
    (a.addForm f).meaning? short = some spec.namespaceName := by
  simp [Aliases.addForm, h, meaning?_addLibspec, hbinds]

theorem meaning?_addForm_of_not_binds (h : ¬ Binds f short) :
    (a.addForm f).meaning? short = a.meaning? short := by
  unfold Aliases.addForm
  cases hspec : Libspec.ofForm? f with
  | none => rfl
  | some spec =>
    have hnot : ¬ spec.Binds short := fun hbinds => h ⟨spec, hspec, hbinds⟩
    simp [meaning?_addLibspec, hnot]

/-! ## 2. The libspecs of a source -/

/-- The libspecs in a clause of an `ns` form. -/
def clauseLibspecs (clause : Form α) : List (Form α) :=
  match clause.shape.list? with
  | some (head :: specs) => if head.shape.keyword? = some ":require" then specs else []
  | _ => []

/-- The libspecs in a top-level form. -/
def rootLibspecs (root : Form α) : List (Form α) :=
  match root.call? with
  | some ("ns", items) => items.flatMap clauseLibspecs
  | _ => []

/-- The libspecs of a source, in order. -/
def libspecs (roots : List (Form α)) : List (Form α) :=
  roots.flatMap rootLibspecs

/-- A libspec stands behind `:require` in a list that is part of an `ns` form. -/
theorem mem_libspecs_iff :
    f ∈ libspecs roots ↔ ∃ l k clauses, .seq l .list (.atom k (.symbol "ns") :: clauses) ∈ roots ∧
      ∃ m j specs, .seq m .list (.atom j (.keyword ":require") :: specs) ∈ clauses ∧ f ∈ specs := by
  have hclause : ∀ clause : Form α, f ∈ clauseLibspecs clause ↔
      ∃ m j specs, clause = .seq m .list (.atom j (.keyword ":require") :: specs) ∧ f ∈ specs := by
    intro clause
    constructor
    · intro hf
      unfold clauseLibspecs at hf
      split at hf
      · next head specs hlist =>
        obtain ⟨m, rfl⟩ := Form.list?_eq_some_iff.mp hlist
        split at hf
        · next hkey =>
          obtain ⟨j, rfl⟩ := Form.eq_keyword hkey
          exact ⟨m, j, specs, rfl, hf⟩
        · simp at hf
      · simp at hf
    · rintro ⟨m, j, specs, rfl, hf⟩
      exact hf
  have hroot : ∀ root : Form α, f ∈ rootLibspecs root ↔
      ∃ l k clauses, root = .seq l .list (.atom k (.symbol "ns") :: clauses) ∧
        ∃ clause ∈ clauses, f ∈ clauseLibspecs clause := by
    intro root
    constructor
    · intro hf
      unfold rootLibspecs at hf
      split at hf
      · next items hcall =>
        obtain ⟨l, k, clauses, rfl, rfl⟩ := Form.call?_eq_some_iff.mp hcall
        obtain ⟨clause, hclauses, hf⟩ := List.mem_flatMap.mp hf
        rcases List.mem_cons.mp hclauses with rfl | hclauses
        · exact absurd hf List.not_mem_nil
        · exact ⟨l, k, clauses, rfl, clause, hclauses, hf⟩
      · simp at hf
    · rintro ⟨l, k, clauses, rfl, clause, hclauses, hf⟩
      exact List.mem_flatMap.mpr ⟨clause, List.mem_cons_of_mem _ hclauses, hf⟩
  simp only [libspecs, List.mem_flatMap, hroot, hclause]
  constructor
  · rintro ⟨_, hroots, l, k, clauses, rfl, _, hclauses, m, j, specs, rfl, hf⟩
    exact ⟨l, k, clauses, hroots, m, j, specs, hclauses, hf⟩
  · rintro ⟨l, k, clauses, hroots, m, j, specs, hclauses, hf⟩
    exact ⟨_, hroots, l, k, clauses, rfl, _, hclauses, m, j, specs, rfl, hf⟩

theorem addClause_eq_foldl (a : Aliases) (clause : Form α) :
    a.addClause clause = (clauseLibspecs clause).foldl Aliases.addForm a := by
  unfold Aliases.addClause clauseLibspecs
  rcases clause.shape.list? with _ | _ | ⟨head, specs⟩
  · rfl
  · rfl
  · by_cases h : head.shape.keyword? = some ":require" <;> simp [h]

theorem addRoot_eq_foldl (a : Aliases) (root : Form α) :
    a.addRoot root = (rootLibspecs root).foldl Aliases.addForm a := by
  unfold Aliases.addRoot rootLibspecs
  rcases root.call? with _ | ⟨name, items⟩
  · rfl
  · by_cases h : name = "ns"
    · subst h
      simp only [List.foldl_flatMap]
      exact congrArg (fun add => items.foldl add a) (funext₂ addClause_eq_foldl)
    · simp [h]

/-- The short names of a source are what its libspecs add. -/
theorem ofRoots_eq_foldl (roots : List (Form α)) :
    Aliases.ofRoots roots = (libspecs roots).foldl Aliases.addForm {} := by
  rw [Aliases.ofRoots, libspecs, List.foldl_flatMap]
  exact congrArg (fun add => roots.foldl add {}) (funext₂ addRoot_eq_foldl)

/-! ## 3. What a short name means -/

/-- Libspecs that do not bind a name leave its meaning alone. -/
theorem meaning?_foldl_of_not_binds (a : Aliases) (h : ∀ f ∈ fs, ¬ Binds f short) :
    (fs.foldl Aliases.addForm a).meaning? short = a.meaning? short := by
  induction fs generalizing a with
  | nil => rfl
  | cons f fs ih =>
    rw [List.foldl_cons, ih _ fun g hg => h g (List.mem_cons_of_mem _ hg),
      meaning?_addForm_of_not_binds (h f List.mem_cons_self)]

/-- A meaning stays if only the libspec that gives it binds the name. -/
theorem meaning?_foldl_of_meaning? (hspec : Libspec.ofForm? f = some spec)
    (hbinds : spec.Binds short) (hother : ∀ g ∈ fs, g ≠ f → ¬ Binds g short)
    (ha : a.meaning? short = some spec.namespaceName) :
    (fs.foldl Aliases.addForm a).meaning? short = some spec.namespaceName := by
  induction fs generalizing a with
  | nil => exact ha
  | cons g fs ih =>
    rw [List.foldl_cons]
    refine ih (fun k hk => hother k (List.mem_cons_of_mem _ hk)) ?_
    by_cases h : g = f
    · exact h ▸ meaning?_addForm hspec hbinds
    · rw [meaning?_addForm_of_not_binds (hother g List.mem_cons_self h), ha]

/-- A name means what the only libspec that binds it says. -/
theorem meaning?_ofRoots (hf : f ∈ libspecs roots) (hspec : Libspec.ofForm? f = some spec)
    (hbinds : spec.Binds short) (hother : ∀ g ∈ libspecs roots, g ≠ f → ¬ Binds g short) :
    (Aliases.ofRoots roots).meaning? short = some spec.namespaceName := by
  obtain ⟨before, after, hsplit⟩ := List.append_of_mem hf
  rw [ofRoots_eq_foldl, hsplit, List.foldl_append, List.foldl_cons]
  refine meaning?_foldl_of_meaning? hspec hbinds (fun g hg => hother g ?_)
    (meaning?_addForm hspec hbinds)
  rw [hsplit]
  exact List.mem_append_right _ (List.mem_cons_of_mem _ hg)

/-- A name that no libspec binds means nothing. -/
theorem meaning?_ofRoots_of_not_binds (h : ∀ f ∈ libspecs roots, ¬ Binds f short) :
    (Aliases.ofRoots roots).meaning? short = none := by
  rw [ofRoots_eq_foldl, meaning?_foldl_of_not_binds _ h]
  cases short <;> rfl

/-! ## 4. What a libspec says -/

/-- What stands in a list of referred names: symbols, comments and line breaks. -/
def isListedName (f : Form α) : Bool :=
  !f.isSemantic || f.shape.symbol?.isSome

/-- The options that a libspec may have: an alias, and a list or vector of referred names. -/
def isKnownOption (option : Form α × Form α) : Bool :=
  match option.1.shape.keyword? with
  | some ":as" => option.2.shape.symbol?.isSome
  | some ":refer" => option.2.shape.listOrVector?.any fun names => names.all isListedName
  | _ => false

/-- A list or vector of the symbol `ns` and of options in pairs, comments and line breaks apart. -/
def HasOptions (f : Form α) (ns : String) (options : List (Form α × Form α)) : Prop :=
  ∃ items first, f.shape.listOrVector? = some items ∧ first.shape.symbol? = some ns ∧
    items.filter Form.isSemantic = first :: options.flatMap fun option => [option.1, option.2]

namespace Libspec

variable {spec' : Libspec} {option : Form α × Form α} {options : List (Form α × Form α)}

/-- Referred names are read if nothing but names is listed. -/
theorem names?_eq (fs : List (Form α)) :
    names? fs
      = if fs.all isListedName then some (fs.filterMap fun f => f.shape.symbol?) else none := by
  induction fs with
  | nil => rfl
  | cons f fs ih =>
    cases hsymbol : f.shape.symbol? with
    | some name =>
      obtain ⟨k, rfl⟩ := Form.eq_symbol hsymbol
      have hcode : (Form.atom k (.symbol name)).isSemantic = true := rfl
      rw [names?, if_pos hcode, ih, hsymbol]
      cases h : fs.all isListedName <;> simp [h, hsymbol, isListedName]
    | none =>
      rw [names?, ih]
      cases hcode : f.isSemantic <;> simp [isListedName, hcode, hsymbol]

/-- The libspec with one more option. -/
def withOption? (spec : Libspec) (option : Form α × Form α) : Option Libspec :=
  match option.1.shape.keyword? with
  | some ":as" => option.2.shape.symbol?.map fun name => { spec with alias? := some name }
  | some ":refer" =>
    (option.2.shape.listOrVector?.bind names?).map fun names => { spec with referred := names }
  | _ => none

theorem withOptions?_cons (spec : Libspec) (key value : Form α) (rest : List (Form α)) :
    withOptions? spec (key :: value :: rest)
      = (withOption? spec (key, value)).bind fun spec => withOptions? spec rest := by
  rw [withOptions?, withOption?]
  by_cases has : key.shape.keyword? = some ":as"
  · simp only [has]
    cases value.shape.symbol? <;> rfl
  · by_cases hrefer : key.shape.keyword? = some ":refer"
    · simp only [hrefer]
      cases value.shape.listOrVector? with
      | none => rfl
      | some items => cases h : names? items <;> simp [h]
    · simp

/-- Options are added in order. -/
theorem withOptions?_flatMap (spec : Libspec) (options : List (Form α × Form α)) :
    withOptions? spec (options.flatMap fun option => [option.1, option.2])
      = options.foldlM withOption? spec := by
  induction options generalizing spec with
  | nil => rfl
  | cons option options ih =>
    rw [List.flatMap_cons, List.cons_append, List.cons_append, List.nil_append, withOptions?_cons,
      List.foldlM_cons]
    exact congrArg (Option.bind _) (funext ih)

theorem ofForm?_of_hasOptions {ns : String} (h : HasOptions f ns options) :
    ofForm? f = options.foldlM withOption? { namespaceName := ns } := by
  obtain ⟨items, first, hitems, hfirst, hcode⟩ := h
  have hsymbol : f.shape.symbol? = none := by
    cases f with
    | seq _ _ _ => rfl
    | _ => simp [Form.shape, Shape.listOrVector?, Shape.list?, Shape.vector?] at hitems
  simp only [ofForm?, hsymbol, hitems, hcode, hfirst, Option.bind_eq_bind, Option.bind_some,
    withOptions?_flatMap]

/-- An option is added if it is one that libspecs may have. -/
theorem isSome_withOption? : (spec.withOption? option).isSome = isKnownOption option := by
  unfold withOption? isKnownOption
  by_cases has : option.1.shape.keyword? = some ":as"
  · simp [has]
  · by_cases hrefer : option.1.shape.keyword? = some ":refer"
    · simp only [hrefer]
      cases option.2.shape.listOrVector? with
      | none => rfl
      | some names =>
        simp only [names?_eq, Option.bind_some, Option.isSome_map, Option.any_some]
        cases names.all isListedName <;> rfl
    · simp

/-- What an option changes. -/
theorem withOption?_eq_some (h : spec.withOption? option = some spec') :
    spec'.namespaceName = spec.namespaceName ∧
      spec'.alias? = if option.1.shape.keyword? = some ":as" then option.2.shape.symbol?
        else spec.alias? := by
  unfold withOption? at h
  split at h
  · next hkey =>
    obtain ⟨name, hname, rfl⟩ := Option.map_eq_some_iff.mp h
    simp [hkey, hname]
  · next hkey =>
    obtain ⟨names, -, rfl⟩ := Option.map_eq_some_iff.mp h
    simp [hkey]
  · cases h

/-- Options are added if all of them are known. -/
theorem isSome_foldlM (spec : Libspec) (options : List (Form α × Form α)) :
    (options.foldlM withOption? spec).isSome = options.all isKnownOption := by
  induction options generalizing spec with
  | nil => rfl
  | cons option options ih =>
    rw [List.foldlM_cons, List.all_cons, ← @isSome_withOption? _ spec]
    cases h : spec.withOption? option with
    | none => rfl
    | some spec' => simpa using ih spec'

/-- The namespace stays, and so does an alias that every option keeps. -/
theorem foldlM_eq_some (h : options.foldlM withOption? spec = some spec') :
    spec'.namespaceName = spec.namespaceName ∧ ∀ text,
      (∀ option ∈ options, option.1.shape.keyword? = some ":as" →
        option.2.shape.symbol? = some text) →
      (spec.alias? = some text ∨ ∃ option ∈ options, option.1.shape.keyword? = some ":as") →
      spec'.alias? = some text := by
  induction options generalizing spec with
  | nil =>
    obtain rfl : spec = spec' := by simpa using h
    exact ⟨rfl, fun text _ halias => by simpa using halias⟩
  | cons option options ih =>
    rw [List.foldlM_cons] at h
    obtain ⟨next, hnext, h⟩ := Option.bind_eq_some_iff.mp h
    obtain ⟨hns, halias⟩ := withOption?_eq_some hnext
    obtain ⟨hns', hkept⟩ := ih h
    refine ⟨hns'.trans hns, fun text hsame hgiven => ?_⟩
    refine hkept text (fun o ho => hsame o (List.mem_cons_of_mem _ ho)) ?_
    by_cases hkey : option.1.shape.keyword? = some ":as"
    · left
      rw [halias, if_pos hkey]
      exact hsame option List.mem_cons_self hkey
    · rw [halias, if_neg hkey]
      simpa [hkey] using hgiven

end Libspec

variable {ns : String} {options : List (Form α × Form α)}

/-- An alias stands for the namespace of the libspec that gives it, if no other libspec binds it and
the options of this one are all known. With an unknown option it stands for nothing. -/
theorem namespaceOf_libspec (hf : f ∈ libspecs roots) (hspec : HasOptions f ns options)
    (hgiven : ∃ option ∈ options, option.1.shape.keyword? = some ":as")
    (hsame : ∀ option ∈ options, option.1.shape.keyword? = some ":as" →
      option.2.shape.symbol? = some text)
    (hother : ∀ g ∈ libspecs roots, g ≠ f → ¬ Binds g (.ofNamespace text)) :
    (Aliases.ofRoots roots).namespaceOf? text
      = if options.all isKnownOption then some ns else none := by
  have hadded := Libspec.ofForm?_of_hasOptions hspec
  have hsome := Libspec.isSome_foldlM { namespaceName := ns } options
  cases hfold : options.foldlM Libspec.withOption? { namespaceName := ns } with
  | none =>
    rw [hfold] at hsome hadded
    have hnone : ∀ g ∈ libspecs roots, ¬ Binds g (.ofNamespace text) := by
      intro g hg hbinds
      by_cases h : g = f
      · obtain ⟨spec, hg, -⟩ := hbinds
        rw [h, hadded] at hg
        cases hg
      · exact hother g hg h hbinds
    rw [← hsome]
    exact meaning?_ofRoots_of_not_binds hnone
  | some spec =>
    rw [hfold] at hsome hadded
    obtain ⟨hns, halias⟩ := Libspec.foldlM_eq_some hfold
    have hbinds : spec.Binds (.ofNamespace text) := halias text hsame (.inr hgiven)
    have hmeans := meaning?_ofRoots hf hadded hbinds hother
    rw [← hsome]
    exact hmeans.trans (congrArg some hns)

/-- Neither the order of the options nor a comment between them matters. -/
theorem namespaceOf_libspec_comment :
    ∃ d, Reader.read .everything "(ns n (:require (lib :refer [a b] ;c\n :as l)))" = .ok d ∧
      (Aliases.ofRoots d.roots).namespaceOf? "l" = some "lib" := by
  let first : Form Label := .atom ⟨3, 17, 1, 18⟩ (.symbol "lib")
  let refer : Form Label × Form Label := (.atom ⟨4, 21, 1, 22⟩ (.keyword ":refer"),
    .seq ⟨7, 28, 1, 29⟩ .vector
      [.atom ⟨5, 29, 1, 30⟩ (.symbol "a"), .atom ⟨6, 31, 1, 32⟩ (.symbol "b")])
  let as : Form Label × Form Label :=
    (.atom ⟨10, 38, 2, 2⟩ (.keyword ":as"), .atom ⟨11, 42, 2, 6⟩ (.symbol "l"))
  let libspec : Form Label := .seq ⟨12, 16, 1, 17⟩ .list [first, refer.1, refer.2,
    .atom ⟨8, 34, 1, 35⟩ (.comment ";c"), .atom ⟨9, 36, 1, 37⟩ .newline, as.1, as.2]
  have hread : ∃ d, Reader.read .everything "(ns n (:require (lib :refer [a b] ;c\n :as l)))"
      = .ok d ∧ libspecs d.roots = [libspec] := ⟨_, rfl, rfl⟩
  obtain ⟨d, hread, hspecs⟩ := hread
  have hspec : HasOptions libspec "lib" [refer, as] := ⟨_, first, rfl, rfl, rfl⟩
  have hsame : ∀ option ∈ [refer, as], option.1.shape.keyword? = some ":as" →
      option.2.shape.symbol? = some "l" := by
    simp [refer, as, Form.shape, Shape.keyword?, Shape.symbol?]
  refine ⟨d, hread, namespaceOf_libspec (hspecs ▸ List.mem_singleton_self _) hspec
    ⟨as, by simp, rfl⟩ hsame fun g hg hne => ?_⟩
  exact absurd (List.mem_singleton.mp (hspecs ▸ hg)) hne

/-- With `:refer :all` beside it an alias is lost. -/
theorem alias_lost :
    ∃ (d : Reader.Document) (f : Form Label) (options : List (Form Label × Form Label)),
      Reader.read .everything "(ns n (:require [lib :as l :refer :all]))" = .ok d ∧
      libspecs d.roots = [f] ∧ HasOptions f "lib" options ∧
      options.map (fun option => (option.1.shape.keyword?, option.2.bare))
        = [(some ":as", .atom () (.symbol "l")), (some ":refer", .atom () (.keyword ":all"))] ∧
      (Aliases.ofRoots d.roots).namespaceOf? "l" = none := by
  refine ⟨_, _, [(.atom ⟨4, 21, 1, 22⟩ (.keyword ":as"), .atom ⟨5, 25, 1, 26⟩ (.symbol "l")),
    (.atom ⟨6, 27, 1, 28⟩ (.keyword ":refer"), .atom ⟨7, 34, 1, 35⟩ (.keyword ":all"))],
    rfl, rfl, ⟨_, _, rfl, rfl, rfl⟩, rfl, rfl⟩

/-! ## 5. The style of a symbol under each of its names -/

/-- A libspec `[ns :as qualifier :refer [… name …]]`, each in a list or a vector. Comments and line
breaks may stand between any of its parts. -/
def Introduces (f : Form α) (ns qualifier name : String) : Prop :=
  ∃ k l m value names, HasOptions f ns [(.atom k (.keyword ":as"), .atom l (.symbol qualifier)),
      (.atom m (.keyword ":refer"), value)] ∧
    value.shape.listOrVector? = some names ∧ names.all isListedName = true ∧
    ∃ j, .atom j (.symbol name) ∈ names

variable {qualifier name : String}

/-- What such a libspec says. -/
theorem Introduces.ofForm? (h : Introduces f ns qualifier name) :
    ∃ referred, Libspec.ofForm? f = some ⟨ns, some qualifier, referred⟩ ∧ name ∈ referred := by
  obtain ⟨k, l, m, value, names, hspec, hnames, hlisted, j, hname⟩ := h
  refine ⟨names.filterMap fun f => f.shape.symbol?, ?_, List.mem_filterMap.mpr ⟨_, hname, rfl⟩⟩
  have hread : value.shape.listOrVector?.bind Libspec.names?
      = some (names.filterMap fun f => f.shape.symbol?) := by
    rw [hnames, Option.bind_some, Libspec.names?_eq, if_pos hlisted]
  rw [Libspec.ofForm?_of_hasOptions hspec]
  simp only [List.foldlM_cons, List.foldlM_nil, bind_pure]
  exact congrArg (Option.map fun names => Libspec.mk ns (some qualifier) names) hread

theorem mem_nodesAll_of_mem_libspecs (hf : f ∈ libspecs roots) : f ∈ Form.nodesAll roots := by
  obtain ⟨l, k, clauses, hroot, m, j, specs, hclause, hf⟩ := mem_libspecs_iff.mp hf
  have hns := Form.mem_nodesAll hroot (Form.self_mem_nodes _)
  have hrequire := Form.mem_nodesAll_of_part hns (List.mem_cons_of_mem _ hclause)
  exact Form.mem_nodesAll_of_part hrequire (List.mem_cons_of_mem _ hf)

/-- An alias in a readable source is not empty. -/
theorem Introduces.ne_empty (h : Introduces f ns qualifier name) (hf : f ∈ libspecs roots)
    (hreadable : ∀ f ∈ roots, f.Readable false) : qualifier ≠ "" := by
  obtain ⟨k, l, m, value, names, ⟨items, first, hitems, -, hcode⟩, -⟩ := h
  have hitem : .atom l (.symbol qualifier) ∈ f.parts := by
    refine Form.parts_of_listOrVector hitems ▸ List.mem_of_mem_filter (p := Form.isSemantic) ?_
    rw [hcode]
    simp
  have hmem := Form.mem_nodesAll_of_part (mem_nodesAll_of_mem_libspecs hf) hitem
  rw [Form.nodesAll_eq_flatMap] at hmem
  obtain ⟨root, hroot, hmem⟩ := List.mem_flatMap.mp hmem
  obtain ⟨inside, hsymbol⟩ := readable_of_mem_nodes (hreadable root hroot) hmem
  obtain ⟨⟨c, body, htext, -⟩, -⟩ := Form.readable_atom.mp hsymbol
  rintro rfl
  simp at htext

end CljFormat.Layout

namespace CljFormat

open Layout (Context ShortName Binds Introduces libspecs)

/-- A style given to the name `name` in the namespace `ns` is found whether the name is written in
full, under an alias of the namespace, or alone where it is referred; but a style given to exactly
what is written comes first. -/
theorem style_spellings {options : Reader.Options} {source ns qualifier name : String}
    {d : Reader.Document} {enabled : List Transform} {table : IndentTable} {style : IndentStyle}
    {f : Form Label} (hread : Reader.read options source = .ok d)
    (hstyle : table.styles[Symbol.join ns name]? = some style)
    (hname : name ≠ "" ∧ '/' ∉ name.toList)
    (hf : f ∈ libspecs (Transform.applyAll enabled d.roots))
    (hspec : Introduces f ns qualifier name)
    (hother : ∀ g ∈ libspecs (Transform.applyAll enabled d.roots), g ≠ f →
      ¬ Binds g (.ofNamespace qualifier) ∧ ¬ Binds g (.referred name)) :
    let ctx := Context.ofRoots table (Transform.applyAll enabled d.roots)
    ctx.style? (Symbol.join ns name) = some style ∧
      ctx.style? (Symbol.join qualifier name)
        = some ((table.style? (Symbol.join qualifier name)).getD style) ∧
      ctx.style? name = some ((table.style? name).getD style) := by
  intro ctx
  have hexact : table.style? (Symbol.join ns name) = some style := by
    simp [IndentTable.style?, hstyle]
  have hqualifier : qualifier ≠ "" :=
    hspec.ne_empty hf (Transform.readable_applyAll enabled (Reader.readable_of_read hread))
  obtain ⟨referred, hadded, hreferred⟩ := hspec.ofForm?
  have hjoined : Symbol.split? (Symbol.join qualifier name) = some (qualifier, name) :=
    Symbol.split?_join hqualifier (.inr hname)
  have halone : Symbol.split? name = none := Symbol.split?_eq_none hname.2
  have halias : ctx.aliases.namespaceOf? qualifier = some ns :=
    Layout.meaning?_ofRoots hf hadded
      (show Layout.Libspec.Binds _ (.ofNamespace qualifier) from rfl)
      fun g hg hne => (hother g hg hne).1
  have hrefer : ctx.aliases.referredFrom? name = some ns :=
    Layout.meaning?_ofRoots hf hadded
      (show Layout.Libspec.Binds _ (.referred name) from hreferred)
      fun g hg hne => (hother g hg hne).2
  have htable : ctx.table = table := rfl
  refine ⟨?_, ?_, ?_⟩
  · simp [Context.style?, htable, hexact]
  · simp only [Context.style?, Context.resolve?, htable, hjoined, halias, hexact, Option.map_some,
      Option.bind_some]
    cases table.style? (Symbol.join qualifier name) <;> rfl
  · simp only [Context.style?, Context.resolve?, htable, halone, hrefer, hexact, Option.map_some,
      Option.bind_some]
    cases table.style? name <;> rfl

/-- The style of `my.lib/block` is found under all three of its names. -/
theorem style_spellings_block :
    let table : IndentTable := { styles := (∅ : StyleMap).insert "my.lib/block" .listBody }
    ∃ d, Reader.read .everything "(ns a (:require [my.lib :as m :refer [;c\nblock]]))" = .ok d ∧
      (Context.ofRoots table d.roots).style? "my.lib/block" = some .listBody ∧
      (Context.ofRoots table d.roots).style? "m/block" = some .listBody ∧
      (Context.ofRoots table d.roots).style? "block" = some .listBody := by
  intro table
  let name : Form Label := .atom ⟨9, 41, 2, 1⟩ (.symbol "block")
  let listed : List (Form Label) :=
    [.atom ⟨7, 38, 1, 39⟩ (.comment ";c"), .atom ⟨8, 40, 1, 41⟩ .newline, name]
  let libspec : Form Label := .seq ⟨11, 16, 1, 17⟩ .vector
    [.atom ⟨3, 17, 1, 18⟩ (.symbol "my.lib"), .atom ⟨4, 24, 1, 25⟩ (.keyword ":as"),
      .atom ⟨5, 28, 1, 29⟩ (.symbol "m"), .atom ⟨6, 30, 1, 31⟩ (.keyword ":refer"),
      .seq ⟨10, 37, 1, 38⟩ .vector listed]
  have hread : ∃ d, Reader.read .everything "(ns a (:require [my.lib :as m :refer [;c\nblock]]))"
      = .ok d ∧ libspecs d.roots = [libspec] := ⟨_, rfl, rfl⟩
  obtain ⟨d, hread, hspecs⟩ := hread
  have hname : name ∈ listed := by simp [listed]
  have hspec : Introduces libspec "my.lib" "m" "block" :=
    ⟨_, _, _, _, listed, ⟨_, _, rfl, rfl, rfl⟩, rfl, rfl, _, hname⟩
  have hstyle : table.styles[Symbol.join "my.lib" "block"]? = some .listBody :=
    Std.TreeMap.getElem?_insert_self
  have hstyles := @style_spellings .everything _ "my.lib" "m" "block" d [] table .listBody libspec
    hread hstyle (by decide)
  rw [Transform.applyAll_nil, hspecs] at hstyles
  exact ⟨d, hread, hstyles (List.mem_singleton_self _) hspec fun g hg hne =>
    absurd (List.mem_singleton.mp hg) hne⟩

end CljFormat
