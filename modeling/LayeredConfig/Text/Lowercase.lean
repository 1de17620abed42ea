import LayeredConfig.Text.LetterTable

/-!
# `LayeredConfig.Text.Lowercase` — small letters

The Unicode mapping to small letters. All of it is a mapping of single characters but for two: the capital I
with a dot becomes two characters, and the capital sigma at the end of a word becomes the final small sigma.

## Contents
- **`lowerChar`.** The small form of one character.
- **`lowercase`.** The small form of a text.
-/

namespace LayeredConfig.Text

/-- Whether a character is a letter that has a case. -/
def isCased (c : Char) : Bool := inRanges casedRanges c.toNat

/-- Whether a character has no case and does not end a word. -/
def isCaseIgnorable (c : Char) : Bool := inRanges caseIgnorableRanges c.toNat

/-- The small letter of a single capital letter; any other character is left as it is. -/
def lowerSingle (c : Char) : Char :=
  if c.toNat < 0x80 then c.toLower
  else match lowerRanges.find? fun r =>
      r.first ≤ c.toNat && c.toNat ≤ r.last && (c.toNat - r.first) % r.step == 0 with
    | some r => Char.ofNat (c.toNat + r.add).toNat
    | none => c

/-- The small form of a character: two characters for the capital I with a dot, one for all others. -/
def lowerChar (c : Char) : Text :=
  if c.toNat = 0x130 then ['i', Char.ofNat 0x307] else [lowerSingle c]

/-- Whether the first character that does not belong to a word silently is a letter that has a case. -/
def meetsCased (t : Text) : Bool := (t.dropWhile isCaseIgnorable).head?.any isCased

/-- The small sigma, and its form at the end of a word. -/
def smallSigma (final : Bool) : Char := Char.ofNat (if final then 0x3c2 else 0x3c3)

/-- The small form of a text, of which the reversed text before it is given. -/
def lowercaseFrom (before : Text) : Text → Text
  | [] => []
  | c :: r =>
      let here := if c.toNat = 0x3a3 then [smallSigma (meetsCased before && !meetsCased r)] else lowerChar c
      here ++ lowercaseFrom (c :: before) r

/-- The small form of a text. -/
def lowercase (t : Text) : Text := lowercaseFrom [] t

end LayeredConfig.Text
