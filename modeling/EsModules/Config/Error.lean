/-!
# Failures of the configuration
-/

namespace EsModules

/-- Why a project cannot be configured. -/
inductive ConfigError where
  /-- A file that was asked for does not exist. -/
  | notFound (path : String)
  /-- A file of an unknown kind. -/
  | unsupportedFormat (path : String)
  /-- A field without a value. -/
  | missingField (field hint : String)
  /-- A field with an unusable value. -/
  | invalidValue (field value hint : String)
  deriving DecidableEq, Repr, Inhabited

namespace ConfigError

/-- The field that stands for a file that cannot be read as a whole. -/
def wholeFile : String := "configuration"

/-- The text that tells the user what went wrong. -/
def message : ConfigError → String
  | notFound path => s!"Config file not found: {path}"
  | unsupportedFormat path => s!"Unsupported configuration format: {path}"
  | missingField field _ => s!"Missing required field: {field}"
  | invalidValue field value _ =>
      if field == wholeFile then s!"Invalid value for '{field}'"
      else s!"Invalid value for '{field}': {value}"

/-- The stable code of the failure. -/
def code : ConfigError → String
  | notFound _ => "modshift::config::not_found"
  | unsupportedFormat _ => "modshift::config::unsupported_format"
  | missingField _ _ => "modshift::config::missing_field"
  | invalidValue _ _ _ => "modshift::config::invalid_value"

/-- Advice that goes with the failure. -/
def help : ConfigError → String
  | notFound _ => "Create a modshift.toml file or pass an existing file to --config"
  | unsupportedFormat _ => "Use a .toml or .json config file"
  | missingField _ hint => hint
  | invalidValue _ _ hint => hint

end ConfigError
end EsModules
