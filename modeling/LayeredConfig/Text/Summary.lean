import LayeredConfig.Text.PrintTable

/-!
# `LayeredConfig.Text.Summary` — one-line views of values

How a value is shown in a log or an error report: an object with its fields, a list, a quoted text.

## Contents
- **`object`, `list`, `quoted`.** The three forms.
-/

namespace LayeredConfig.Summary

/-- Texts with `, ` between them. -/
def commaList : List Text → Text
  | [] => []
  | [t] => t
  | t :: ts => t ++ ',' :: ' ' :: commaList ts

/-- An object with named fields. -/
def object (name : Text) (fields : List (Text × Text)) : Text :=
  name ++ " \x7b ".toList ++ commaList (fields.map fun f => f.1 ++ ':' :: ' ' :: f.2) ++ " \x7d".toList

/-- A list of values. -/
def list (items : List Text) : Text := '[' :: commaList items ++ [']']

/-- Whether a character has no form of its own on a line. -/
def isHidden (c : Char) : Bool :=
  c.toNat < 0x20 || c.toNat == 0x7f || Text.inRanges Text.hiddenRanges c.toNat

/-- The spelling of one character inside quotes. -/
def quotedChar (c : Char) : Text :=
  if c = '"' then ['\\', '"']
  else if c = '\\' then ['\\', '\\']
  else if c = '\n' then ['\\', 'n']
  else if c = '\t' then ['\\', 't']
  else if c = '\r' then ['\\', 'r']
  else if c.toNat = 0 then ['\\', '0']
  else if isHidden c then
    "\\u\x7b".toList ++ Nat.toDigits 16 c.toNat ++ ['\x7d']
  else [c]

/-- A text in quotes, with quotes, backslashes and characters that do not show escaped. -/
def quoted (t : Text) : Text := '"' :: t.flatMap quotedChar ++ ['"']

end LayeredConfig.Summary
