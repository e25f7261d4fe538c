/-
CljFormat.IndentStyle — the indentation styles and which names have them by default.

A style says where the lines of a list after its first one start:

    normal    [1        list      (foo bar     list-body  (defn foo []
               2]                      baz)                 bar)

The styles `let`, `letfn`, `deftype` and `for` lay out their own list as `list-body` and besides
say something about forms inside it. The `cond` styles are `list-body` with arguments in pairs,
after as many single ones as their number says; the second of a pair is set two columns deeper
when it starts a line.
-/

namespace CljFormat

/-- How a list is indented. -/
inductive IndentStyle
  | normal | list | listBody | letStyle | letfn | deftype | forStyle | cond0 | cond1 | cond2
deriving DecidableEq, Repr

/-- How a threading form passes its value along. -/
inductive ThreadFirst
  /-- Every form after the value receives it. -/
  | normal
  /-- The second of every pair of forms after the value receives it. -/
  | condArrow
deriving DecidableEq, Repr

namespace IndentStyle

/-- Every style. -/
def all : List IndentStyle :=
  [normal, list, listBody, letStyle, letfn, deftype, forStyle, cond0, cond1, cond2]

/-- The keyword that names a style. -/
def keyword : IndentStyle → String
  | normal => ":normal"
  | list => ":list"
  | listBody => ":list-body"
  | letStyle => ":let"
  | letfn => ":letfn"
  | deftype => ":deftype"
  | forStyle => ":for"
  | cond0 => ":cond0"
  | cond1 => ":cond1"
  | cond2 => ":cond2"

/-- The style that a keyword names. -/
def ofKeyword? (text : String) : Option IndentStyle :=
  all.find? fun style => style.keyword == text

/-- How many single arguments come before the pairs, in the styles that pair arguments. -/
def leadingArgs? : IndentStyle → Option Nat
  | cond0 => some 0
  | cond1 => some 1
  | cond2 => some 2
  | _ => none

/-- The style of a list that receives its first argument from a threading form around it: one
single argument is not written. -/
def threaded : IndentStyle → IndentStyle
  | cond2 => cond1
  | cond1 => cond0
  | style => style

/-- The styles that names have by default. -/
def defaults : List (IndentStyle × List String) :=
  [(listBody,
      ["as->", "bound-fn", "catch", "def", "definline", "defmacro", "defmethod", "defmulti",
        "defn", "defn-", "defonce", "defstruct", "deftest", "deftest-", "doto", "extend", "fn",
        "if", "if-not", "locking", "ns", "set-test", "testing", "when", "when-not", "while",
        "with-bindings", "with-in-str", "with-precision", "with-redefs-fn", "with-test"]),
    (letStyle,
      ["binding", "dotimes", "if-let", "if-some", "let", "loop", "when-first", "when-let",
        "when-some", "with-local-vars", "with-open", "with-redefs"]),
    (forStyle, ["doseq", "for"]),
    (letfn, ["letfn"]),
    (deftype,
      ["definterface", "defprotocol", "defrecord", "deftype", "extend-protocol", "extend-type",
        "proxy", "reify"]),
    (cond0, ["cond"]),
    (cond1, ["assoc", "case", "cond->", "cond->>"]),
    (cond2, ["condp"])]

/-- The default style of a name without its namespace. -/
def default? (name : String) : Option IndentStyle :=
  (defaults.find? fun entry => entry.2.contains name).map Prod.fst

/-- Names that start like these are taken for forms with a body. -/
def bodyLeads : List String :=
  ["def", "let", "with-", "when-"]

/-- The style guessed from how a name starts. -/
def guess? (name : String) : Option IndentStyle :=
  if bodyLeads.any fun lead => lead.toList.isPrefixOf name.toList then some listBody else none

end IndentStyle

namespace ThreadFirst

/-- The forms that thread by default. -/
def defaults : List (String × ThreadFirst) :=
  [("->", normal), ("some->", normal), ("cond->", condArrow)]

/-- How a name threads by default. -/
def default? (name : String) : Option ThreadFirst :=
  defaults.lookup name

end ThreadFirst

end CljFormat
