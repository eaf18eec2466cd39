/-
  Settings of a registry.

  A setting may hold any value: whether it counts as on is decided where it is used.
-/
import LetTag.Error
import LetTag.Text.Line
import LetTag.Yaml.Reader

namespace LetTag

/-- Whether statements are traced, the type tag of variables made by binding, and whether every
    pass starts from an empty registry. -/
structure Settings where
  debug : Value
  sourceType : Value
  resetOnCompile : Value

namespace Settings

/-- The settings where nothing is said. -/
def default : Settings :=
  ⟨.bool false, .text "mixed", .bool false⟩

instance : Inhabited Settings := ⟨default⟩

/-- Is tracing on? -/
def traces (s : Settings) : Bool :=
  s.debug.truthy

/-- The settings that a mapping gives; entries under other names are left out. -/
def ofEntries (es : List (Value × Value)) : Settings where
  debug := (Value.lookup? "debug" es).getD default.debug
  sourceType := (Value.lookup? "source_type" es).getD default.sourceType
  resetOnCompile := (Value.lookup? "reset_on_compile" es).getD default.resetOnCompile

/-- The settings that a value gives; nothing at all gives the defaults. -/
def ofValue (v : Value) : Except Error Settings :=
  if !v.truthy then .ok default
  else match v with
    | .dict es => .ok (ofEntries es)
    | v => .error (.notAMapping v.typeName)

/-- Why the text of a file gives no settings. -/
inductive LoadError where
  | unreadable (e : Yaml.ReadError)
  | notAMapping
  deriving DecidableEq, Repr

/-- The settings that the YAML text of a file gives. -/
def load (content : List Char) : Except LoadError Settings :=
  match Yaml.read (Text.unifyNewlines content) with
  | .ok (.dict es) => .ok (ofEntries es)
  | .ok .null => .ok default
  | .ok _ => .error .notAMapping
  | .error e => .error (.unreadable e)

end Settings
end LetTag
