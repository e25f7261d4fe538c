/-
CljFormat.Config — the settings of a run.

The tables of indentation styles and threading forms are the defaults with the overrides of the
settings in front: an override decides for its name, and any other name keeps its default.
-/
import Std.Data.TreeMap
import CljFormat.Form.Reader
import CljFormat.IndentStyle
import CljFormat.Transform

namespace CljFormat

/-- Indentation styles by symbol. -/
abbrev StyleMap := Std.TreeMap String IndentStyle

/-- The overrides of the default tables. Names may be qualified. -/
structure IndentTable where
  styles : StyleMap := ∅
  threading : Std.TreeMap String ThreadFirst := ∅

namespace IndentTable

/-- The style of exactly this name. -/
def style? (t : IndentTable) (name : String) : Option IndentStyle :=
  t.styles[name]? <|> IndentStyle.default? name

/-- How exactly this name threads. -/
def threadFirst? (t : IndentTable) (name : String) : Option ThreadFirst :=
  t.threading[name]? <|> ThreadFirst.default? name

end IndentTable

/-- The settings of a run. -/
structure Config where
  /-- What indentation is made of. -/
  indentChar : Char := ' '
  table : IndentTable := {}
  transforms : List Transform := []
  options : Reader.Options := .everything

namespace Config

/-- Overrides the style of one name. -/
def withStyle (config : Config) (name : String) (style : IndentStyle) : Config :=
  { config with
    table := { config.table with styles := config.table.styles.insert name style } }

/-- Overrides the styles of the names in `styles`. -/
def withStyles (config : Config) (styles : StyleMap) : Config :=
  styles.foldl withStyle config

/-- Overrides how one name threads. -/
def withThreadFirst (config : Config) (name : String) (style : ThreadFirst) : Config :=
  { config with
    table := { config.table with threading := config.table.threading.insert name style } }

end Config

end CljFormat
