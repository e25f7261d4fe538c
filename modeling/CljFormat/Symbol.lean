/-
CljFormat.Symbol — the two halves of a qualified symbol.

The last `/` separates the namespace from the name, except that a symbol that ends in `//` names
`/` itself. A symbol without a namespace in front of that `/` is not qualified.
-/

namespace CljFormat.Symbol

/-- The namespace and the name of a qualified symbol. -/
def split? (sym : String) : Option (String × String) :=
  match sym.toList.reverse with
  | '/' :: '/' :: n :: ns => some (String.ofList (n :: ns).reverse, "/")
  | reversed =>
    match reversed.dropWhile (· != '/') with
    | '/' :: n :: ns =>
      some (String.ofList (n :: ns).reverse,
        String.ofList (reversed.takeWhile (· != '/')).reverse)
    | _ => none

/-- The symbol `name` in the namespace `ns`. -/
def join (ns name : String) : String :=
  ns ++ "/" ++ name

/-- The name of a symbol, qualified or not. -/
def baseName (sym : String) : String :=
  match split? sym with
  | some (_, name) => name
  | none => sym

end CljFormat.Symbol
