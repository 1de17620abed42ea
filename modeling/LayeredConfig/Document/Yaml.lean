import LayeredConfig.Document.Yaml.Tree

/-!
# `LayeredConfig.Document.Yaml` — YAML texts

Reads a YAML text of one document: mappings and sequences, in blocks by indentation or between brackets,
comments, and scalars with or without quotes.

## Contents
- **`document`.** The value of one document.
- **`Yaml.parse`.** The value of a whole text.
-/

namespace LayeredConfig.Document.Yaml

/-- Drops the marks behind a document. -/
def dropEnds (ts : List Token) : List Token := ts.dropWhile fun t => t == .documentEnd

/-- Reads the value of a document behind the mark of its start; there may be none. -/
def content (ts : List Token) : Option (Value × List Token) :=
  match ts with
  | [] => some (.null, [])
  | .documentStart :: _ => some (.null, ts)
  | .documentEnd :: _ => some (.null, ts)
  | _ => blockNode ts

/-- Reads one document, of which the start may be marked. -/
def document (ts : List Token) : Option (Value × List Token) :=
  match ts with
  | .documentStart :: r => content r
  | _ => blockNode ts

/-- The value of a whole text, which is over at its first zero character; a text without any document is an
empty table. -/
def parse (t : Text) : Option Value := do
  match dropEnds (← tokens (t.takeWhile fun c => c.toNat != 0)) with
  | [] => return .table []
  | ts =>
      let (v, r) ← document ts
      if (dropEnds r).isEmpty then return v else failure

end LayeredConfig.Document.Yaml
