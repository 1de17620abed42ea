import LayeredConfig.Record
import LayeredConfig.Text.Summary

/-!
# `LayeredConfig.Error` — what a configuration can refuse, and why

Every refusal is a cause with its own data; the wording is in one place.

## Contents
- **`ValidationError`.** Why a bound value is not acceptable, and its wording.
- **`LoadCause`, `ConfigError`.** Everything else that can go wrong. `ConfigError.message` is absent where the
  wording belongs to the format that was read and not to the configuration.
-/

namespace LayeredConfig

/-! ## Validation -/

/-- Why a bound value is not acceptable. -/
inductive ValidationError where
  | custom (message : Text)
  | field (field reason : Text)
  | multiple (errors : List ValidationError)

mutual

/-- The wording of a validation error. -/
def ValidationError.message : ValidationError → Text
  | .custom m => m
  | .field f r => "Field '".toList ++ f ++ "' is invalid: ".toList ++ r
  | .multiple es => "Multiple validation errors:\n".toList ++ numberedMessages 1 es

/-- One numbered line for each of several errors. -/
def numberedMessages (i : Nat) : List ValidationError → Text
  | [] => []
  | e :: es =>
      ' ' :: ' ' :: Text.ofNat i ++ '.' :: ' ' :: e.message ++ '\n' :: numberedMessages (i + 1) es

end

/-! ## Configuration errors -/

/-- Why a file cannot be a source. -/
inductive LoadCause where
  | noExtension
  | unsupportedExtension (extension : Text)
  | missing
  /-- The file cannot be read, or its text does not follow its format. -/
  | malformed
  deriving DecidableEq, Repr

/-- The wording of a load cause; a malformed file is reported in the words of its format. -/
def LoadCause.message : LoadCause → Option Text
  | .noExtension => some "unable to determine file format".toList
  | .unsupportedExtension e =>
      some ("unsupported file extension: ".toList ++ e ++
        ". Supported: .yaml, .yml, .toml, .json".toList)
  | .missing => some "configuration file not found".toList
  | .malformed => none

/-- What a configuration can refuse. -/
inductive ConfigError where
  | load (source : Text) (cause : LoadCause)
  | notFound (name : Text)
  | conversion (name value reason : Text)
  | expression (name : Text) (problem : Problem)
  | secretDenied (name : Text)
  | deserialization
  | validation (error : ValidationError)
  | undeclared (names : List Text)

namespace ConfigError

/-- The wording of an error, where it is fixed. -/
def message : ConfigError → Option Text
  | load source cause =>
      cause.message.map fun m =>
        "Failed to load configuration source '".toList ++ source ++ "': ".toList ++ m
  | notFound name => some ("Configuration property '".toList ++ name ++ "' not found".toList)
  | conversion name value reason =>
      some ("Failed to convert '".toList ++ value ++ "' for property '".toList ++ name ++
        "': ".toList ++ reason)
  | expression name problem =>
      some ("Failed to expand expression in property '".toList ++ name ++ "': ".toList ++
        problem.message)
  | secretDenied name =>
      some ("Not allowed to access secret property '".toList ++ name ++ "'".toList)
  | deserialization => none
  | validation e => some ("Configuration validation failed: ".toList ++ e.message)
  | undeclared names =>
      some ("Unknown configuration properties: ".toList ++ Summary.commaList names)

end ConfigError

end LayeredConfig
