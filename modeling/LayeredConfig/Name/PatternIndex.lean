import LayeredConfig.Dict
import LayeredConfig.Name.Wildcard

/-!
# `LayeredConfig.Name.PatternIndex` — many patterns at once

Wildcard equality is no key equality, so patterns are kept in buckets by their leading literal segments. A
name is compared only with the patterns of the buckets that its own prefixes select, the longest first.

## Contents
- **Buckets.** `literalPrefix` is the bucket of a pattern, `ofPatterns` and `ofPrefixed` fill the buckets.
- **Queries.** `accepts` for a name, `acceptsUnder` for a prefix and the rest behind it.
-/

namespace LayeredConfig.Name

/-- The longest run of leading segments without `*`, with at least one segment left behind it. -/
def literalPrefix (pattern : Text) : Text :=
  dotted ((segments pattern).dropLast.takeWhile fun s => !s.contains '*')

/-- Patterns by the text of their bucket, and the number of segments of the longest bucket text. -/
structure PatternIndex where
  buckets : Dict Text (List Text)
  longest : Nat

namespace PatternIndex

/-- Puts patterns behind those of a bucket. -/
def addTo (b : Dict Text (List Text)) (key : Text) (patterns : List Text) : Dict Text (List Text) :=
  b.insert key ((b.get? key).getD [] ++ patterns)

/-- The index of finished buckets. -/
def ofBuckets (b : Dict Text (List Text)) : PatternIndex :=
  ⟨b, (b.keys.map fun key => (segments key).length).foldl max 0⟩

/-- The index of patterns, each in the bucket of its literal prefix. -/
def ofPatterns (patterns : List Text) : PatternIndex :=
  ofBuckets (patterns.foldl (fun b p => addTo b (literalPrefix p) [p]) .empty)

/-- The index of patterns that come with the text of their bucket. -/
def ofPrefixed (groups : List (Text × List Text)) : PatternIndex :=
  ofBuckets (groups.foldl (fun b g => addTo b g.1 (g.2.map (join g.1))) .empty)

/-- Whether a pattern of one bucket equals the name. -/
def bucketAccepts (x : PatternIndex) (key name : Text) : Bool :=
  ((x.buckets.get? key).getD []).any fun p => alike p name

/-- Whether any pattern equals the name; no pattern does so for the empty name. -/
def accepts (x : PatternIndex) (name : Text) : Bool :=
  let segs := segments name
  !segs.isEmpty &&
    (List.range (min x.longest (segs.length - 1) + 1)).reverse.any fun k =>
      x.bucketAccepts (dotted (segs.take k)) name

/-- Whether a pattern of exactly this bucket equals the name made of bucket text and rest. -/
def acceptsUnder (x : PatternIndex) (key rest : Text) : Bool := x.bucketAccepts key (join key rest)

/-- The number of patterns. -/
def size (x : PatternIndex) : Nat := (x.buckets.entries.flatMap fun e => e.2).length

/-- Whether there is no pattern. -/
def isEmpty (x : PatternIndex) : Bool := x.size == 0

end PatternIndex

end LayeredConfig.Name
