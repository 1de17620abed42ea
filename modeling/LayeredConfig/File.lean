import LayeredConfig.Document.Json
import LayeredConfig.Document.Placement
import LayeredConfig.Document.Toml
import LayeredConfig.Document.Yaml
import LayeredConfig.Error
import LayeredConfig.Source

/-!
# `LayeredConfig.File` — files as sources

A file is read as a table of properties. Its format is that of its extension. How a text of that format is read is not
for the source to say: it is given a reader.

## Contents
- **`Directory`.** What a working directory holds.
- **`Format`.** The formats and their extensions; `Format.read` gives the entries of a text.
- **`Reader`.** What reads the texts of files; `Reader.ofNotations` is the one of the notations in `Document`.
- **`FileRequest`.** Which file to read and how; `load` reads it.
-/

namespace LayeredConfig

open Text Document

/-! ## Directories -/

/-- What stands under a path. -/
inductive FileEntry where
  | directory
  | file (text : Text)
  deriving DecidableEq, Repr

/-- What a working directory holds, by path. -/
abbrev Directory := Dict Text FileEntry

/-! ## Formats -/

/-- The format of a file. -/
inductive Format where
  | yaml
  | toml
  | json
  deriving DecidableEq, Repr

/-- What follows the last dot of a file name; a dot at its start does not count, and the name of the parent
directory has none. -/
def extension? (path : Text) : Option Text :=
  let parts := fields '.' path
  if path = ['.', '.'] ∨ (joinWith '.' parts.dropLast).isEmpty then none else parts.getLast?

namespace Format

/-- The format of an extension. -/
def ofExtension? (e : Text) : Option Format :=
  if e = "yaml".toList ∨ e = "yml".toList then some .yaml
  else if e = "toml".toList then some .toml
  else if e = "json".toList then some .json
  else none

/-- The entries of a table; every other value is refused. -/
def tableEntries? : Value → Option (List (Text × Value))
  | .table es => some es
  | _ => none

/-- The entries at the top of a text. -/
def read (t : Text) : Format → Option (List (Text × Value))
  | yaml => (Yaml.parse t).bind tableEntries?
  | toml => Toml.parse t
  | json => (Json.parse t).bind tableEntries?

end Format

/-! ## Readers -/

/-- Reads a text in a format: the table of its entries, merged, or nothing where the text cannot be read. -/
abbrev Reader := Format → Text → Option (List (Text × Value))

/-- The reader of the three notations, as far as `Document` has them. It refuses what they leave out: dates and texts of
several lines in TOML, block texts and anchors in YAML. -/
def Reader.ofNotations : Reader := fun format t => (format.read (dropEncodingMark t)).map collect

/-! ## Reading files -/

/-- A file to read: where it is, whether it has to exist, and the ordinal of the source when it is not left
to the file. -/
structure FileRequest where
  path : Text
  required : Bool
  ordinal : Option Int
  deriving DecidableEq, Repr

namespace FileRequest

/-- The name of the source that a file makes. -/
def sourceName (f : FileRequest) : Text := "file:".toList ++ f.path

/-- The format of a file by its extension. -/
def format (f : FileRequest) : Except LoadCause Format :=
  match extension? f.path with
  | none => .error .noExtension
  | some e => match Format.ofExtension? e with
    | some format => .ok format
    | none => .error (.unsupportedExtension e)

/-- The source of the table that a file holds. -/
def sourceOf (f : FileRequest) (es : List (Text × Value)) : TableSource :=
  let t := TableSource.ofProperties f.sourceName (.ofPairs (Value.properties es))
  match f.ordinal with
  | some o => { t with ordinal := o }
  | none => t

/-- The source that a file makes, or why it makes none. A missing file that is not required makes an empty
source. -/
def loadAs (f : FileRequest) (reader : Reader) (dir : Directory) : Except LoadCause TableSource := do
  let format ← f.format
  match dir.get? f.path with
  | none =>
      if f.required then throw .missing else return TableSource.ofProperties f.sourceName .empty
  | some .directory => throw .malformed
  | some (.file t) => match reader format t with
    | some entries => return f.sourceOf entries
    | none => throw .malformed

/-- The source that a file makes. -/
def load (f : FileRequest) (reader : Reader) (dir : Directory) : Except ConfigError TableSource :=
  (f.loadAs reader dir).mapError (.load f.sourceName)

end FileRequest

end LayeredConfig
