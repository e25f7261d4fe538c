/-
CljFormat.Layout.Aliases — the short names that a source gives to names of other namespaces.

A top-level `(ns …)` form lists what it requires in `(:require …)` clauses. A libspec there is a
symbol, or a list or vector of a symbol and options: `:as` with an alias of that namespace, and
`:refer` with names used without it. A libspec with any other option, or one that does not pair
its options, says nothing. Of several meanings of a short name the last one holds.
-/
import CljFormat.Form

namespace CljFormat.Layout

/-- What a libspec says: a namespace, an alias of it, and names referred from it. -/
structure Libspec where
  namespaceName : String
  alias? : Option String := none
  referred : List String := []
deriving DecidableEq, Repr

namespace Libspec

variable {α : Type}

/-- The names behind `:refer`: symbols, between which comments and line breaks may stand. -/
def names? : List (Form α) → Option (List String)
  | [] => some []
  | f :: rest =>
    if f.isSemantic then do
      let name ← f.shape.symbol?
      let names ← names? rest
      return name :: names
    else names? rest

/-- The libspec that `spec` becomes by the options in `items`; a repeated option holds as it is
last given. -/
def withOptions? (spec : Libspec) : List (Form α) → Option Libspec
  | [] => some spec
  | [_] => none
  | key :: value :: rest =>
    match key.shape.keyword? with
    | some ":as" => do
      let name ← value.shape.symbol?
      withOptions? { spec with alias? := some name } rest
    | some ":refer" => do
      let items ← value.shape.listOrVector?
      let names ← names? items
      withOptions? { spec with referred := names } rest
    | _ => none

/-- The libspec that a form writes. -/
def ofForm? (f : Form α) : Option Libspec :=
  match f.shape.symbol? with
  | some name => some { namespaceName := name }
  | none => do
    let items ← f.shape.listOrVector?
    match items.filter Form.isSemantic with
    | first :: options =>
      let name ← first.shape.symbol?
      withOptions? { namespaceName := name } options
    | [] => none

end Libspec

/-- The short names of a source with what they mean, the last meaning first. -/
structure Aliases where
  /-- Aliases and their namespaces. -/
  aliases : List (String × String) := []
  /-- Referred names and their namespaces. -/
  referred : List (String × String) := []
deriving DecidableEq, Repr

namespace Aliases

variable {α : Type}

/-- The namespace that an alias stands for. -/
def namespaceOf? (a : Aliases) (name : String) : Option String :=
  a.aliases.lookup name

/-- The namespace that a name is referred from. -/
def referredFrom? (a : Aliases) (name : String) : Option String :=
  a.referred.lookup name

/-- Adds what a libspec says. -/
def addLibspec (a : Aliases) (spec : Libspec) : Aliases where
  aliases := (spec.alias?.map fun name => (name, spec.namespaceName)).toList ++ a.aliases
  referred := (spec.referred.map fun name => (name, spec.namespaceName)).reverse ++ a.referred

/-- Adds what the form of a libspec says, if it is one. -/
def addForm (a : Aliases) (f : Form α) : Aliases :=
  match Libspec.ofForm? f with
  | some spec => a.addLibspec spec
  | none => a

/-- Adds what a clause of an `ns` form says, if it is a list headed by `:require`. -/
def addClause (a : Aliases) (clause : Form α) : Aliases :=
  match clause.shape.list? with
  | some (head :: specs) =>
    if head.shape.keyword? = some ":require" then specs.foldl addForm a else a
  | _ => a

/-- Adds what a top-level form says, if it is an `ns` form. -/
def addRoot (a : Aliases) (root : Form α) : Aliases :=
  match root.call? with
  | some ("ns", items) => items.foldl addClause a
  | _ => a

/-- The short names of a source. -/
def ofRoots (roots : List (Form α)) : Aliases :=
  roots.foldl addRoot {}

end Aliases

end CljFormat.Layout
