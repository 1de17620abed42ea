import LayeredConfig.Attempt
import LayeredConfig.Dict

/-!
# `LayeredConfig.Name.Trie` — values under paths with wildcards

A tree of path steps. A `*` step leads to the branch for any key, `[*]` to the branch for any index, so that
the two never answer for each other. A `**` step marks its node as recursive: such a node answers for every
step it has no branch for.

## Contents
- **Type.** `Trie`; a path reaches it as the list of its steps.
- **Steps.** `child?` is the branch that answers for a step, `findSteps` follows a list of them.
- **Change.** `alter` changes the node of a path and makes the nodes on the way.
- **Whole trees.** `merge`, `mapValues`, `flatten`.
- **Paths.** `find?`, `get?`, `put`, `take` cut a text into steps first. They are meant for paths that have
  steps; at any other they find and change nothing.
- **Attempts.** `tryFind`, `tryGet`, `tryAlter`, `tryOfPairs` do the same for every text: at a path without
  steps the program breaks off.
-/

namespace LayeredConfig

/-- A node: its value, its literal branches, the branches for any key and any index, and whether it answers
for whatever has no branch. -/
inductive Trie (α : Type) where
  | node (value : Option α) (children : List (Text × Trie α)) (any anyIndex : Option (Trie α))
      (recursive : Bool)

namespace Trie

open Name

variable {α β : Type}

/-- The node without value and branches. -/
def empty : Trie α := .node none [] none none false

instance : Inhabited (Trie α) := ⟨empty⟩

/-- The value at the node itself. -/
def value : Trie α → Option α
  | .node v _ _ _ _ => v

/-- The literal branches. -/
def children : Trie α → List (Text × Trie α)
  | .node _ cs _ _ _ => cs

/-- The branch for any key. -/
def any : Trie α → Option (Trie α)
  | .node _ _ a _ _ => a

/-- The branch for any index. -/
def anyIndex : Trie α → Option (Trie α)
  | .node _ _ _ i _ => i

/-- Whether the node answers for every step it has no branch for. -/
def isRecursive : Trie α → Bool
  | .node _ _ _ _ r => r

/-- The node with another value. -/
def setValue (v : Option α) : Trie α → Trie α
  | .node _ cs a i r => .node v cs a i r

/-! ## Steps -/

/-- What a step asks for. -/
inductive Step where
  | recursive
  | anyKey
  | anyIndex
  | literal (text : Text)
  deriving DecidableEq, Repr

/-- Reads a step. -/
def Step.ofText : Text → Step
  | ['*', '*'] => .recursive
  | ['*'] => .anyKey
  | ['[', '*', ']'] => .anyIndex
  | t => .literal t

/-- The wildcard branch that stands in for a literal step: an index group asks the branch for any index,
every other step the branch for any key. -/
def wildcardFor (t : Trie α) (step : Text) : Option (Trie α) :=
  if step.head? == some '[' then t.anyIndex else t.any

/-- The branch of a node that answers for a step. -/
def child? (t : Trie α) (step : Text) : Option (Trie α) :=
  let found := match Step.ofText step with
    | .recursive => none
    | .anyKey => t.any
    | .anyIndex => t.anyIndex
    | .literal s => (lookupKey s t.children).or (t.wildcardFor s)
  found.or (if t.isRecursive then some t else none)

/-- The node that a list of steps leads to. There is no turning back: a literal branch that leads nowhere
hides the wildcard branch beside it. -/
def findSteps (t : Trie α) : List Text → Option (Trie α)
  | [] => some t
  | s :: r => (t.child? s).bind fun c => c.findSteps r

@[simp] theorem findSteps_nil (t : Trie α) : t.findSteps [] = some t := rfl

/-! ## Change -/

/-- Changes the entry under a key, which is made of nothing when it is missing. -/
def alterChild (f : Trie α → Trie α) (key : Text) : List (Text × Trie α) → List (Text × Trie α)
  | [] => [(key, f empty)]
  | e :: r => if key = e.1 then (e.1, f e.2) :: r else e :: alterChild f key r

/-- Changes the node that a list of steps names, making the nodes that are missing on the way. On a
recursive node a wildcard step stays where it is. -/
def alterSteps (f : Trie α → Trie α) : List Text → Trie α → Trie α
  | [], t => f t
  | s :: r, .node v cs a i rec =>
      match Step.ofText s with
      | .recursive => alterSteps f r (.node v cs a i true)
      | .anyKey =>
          if rec then alterSteps f r (.node v cs a i rec)
          else .node v cs (some (alterSteps f r (a.getD empty))) i rec
      | .anyIndex =>
          if rec then alterSteps f r (.node v cs a i rec)
          else .node v cs a (some (alterSteps f r (i.getD empty))) rec
      | .literal key => .node v (alterChild (alterSteps f r) key cs) a i rec

/-- The node that `alterSteps` changes, as it stands before. -/
def targetSteps : List Text → Trie α → Trie α
  | [], t => t
  | s :: r, .node v cs a i rec =>
      match Step.ofText s with
      | .recursive => targetSteps r (.node v cs a i true)
      | .anyKey =>
          if rec then targetSteps r (.node v cs a i rec) else targetSteps r (a.getD empty)
      | .anyIndex =>
          if rec then targetSteps r (.node v cs a i rec) else targetSteps r (i.getD empty)
      | .literal key => targetSteps r ((lookupKey key cs).getD empty)

/-! ## Whole trees -/

mutual

/-- Adds every node of the second tree to the first, whose values stay. -/
def merge : Trie α → Trie α → Trie α
  | .node v cs a i rec, .node v' cs' a' i' rec' =>
      .node (v.or v') (mergeChildren cs cs') (mergeBranch a a') (mergeBranch i i') (rec || rec')

/-- Merges a wildcard branch. -/
def mergeBranch : Option (Trie α) → Option (Trie α) → Option (Trie α)
  | a, none => a
  | none, some b => some (merge empty b)
  | some a, some b => some (merge a b)

/-- Merges literal branches one by one. -/
def mergeChildren : List (Text × Trie α) → List (Text × Trie α) → List (Text × Trie α)
  | cs, [] => cs
  | cs, (key, b) :: r => mergeChildren (alterChild (fun a => merge a b) key cs) r

end

mutual

/-- Applies a function to every value. -/
def mapValues (f : α → β) : Trie α → Trie β
  | .node v cs a i rec =>
      .node (v.map f) (mapChildren f cs) (mapBranch f a) (mapBranch f i) rec

/-- Applies a function to every value below a wildcard branch. -/
def mapBranch (f : α → β) : Option (Trie α) → Option (Trie β)
  | none => none
  | some t => some (mapValues f t)

/-- Applies a function to every value below the literal branches. -/
def mapChildren (f : α → β) : List (Text × Trie α) → List (Text × Trie β)
  | [] => []
  | (key, t) :: r => (key, mapValues f t) :: mapChildren f r

end

mutual

/-- The values of a tree under their names, each behind the given path: the node's own value, then the
literal branches, then the branches for any key and any index. -/
def listFrom (path : Text) : Trie α → List (Text × α)
  | .node v cs a i _ =>
      (v.map fun x => (path, x)).toList ++ listChildren path cs ++
        listBranch (join path ['*']) a ++ listBranch (join path ['[', '*', ']']) i

/-- The values below a wildcard branch. -/
def listBranch (path : Text) : Option (Trie α) → List (Text × α)
  | none => []
  | some t => listFrom path t

/-- The values below the literal branches. -/
def listChildren (path : Text) : List (Text × Trie α) → List (Text × α)
  | [] => []
  | (key, t) :: r => listFrom (join path key) t ++ listChildren path r

end

/-- The values of a tree by name; of two values under one name the one listed later stays. -/
def flatten (t : Trie α) : Dict Text α := Dict.ofPairs (t.listFrom [])

/-! ## Paths -/

/-- The node at a path that has steps. -/
def find? (t : Trie α) (path : Text) : Option (Trie α) := (keySteps path).bind t.findSteps

/-- The value at a path that has steps. -/
def get? (t : Trie α) (path : Text) : Option α := (t.find? path).bind value

/-- Whether there is a value at a path. -/
def contains (t : Trie α) (path : Text) : Bool := (t.get? path).isSome

/-- Changes the node at a path that has steps. -/
def alter (t : Trie α) (path : Text) (f : Trie α → Trie α) : Trie α :=
  match keySteps path with
  | some steps => alterSteps f steps t
  | none => t

/-- The node at a path, as `alter` finds or makes it. -/
def target (t : Trie α) (path : Text) : Trie α :=
  match keySteps path with
  | some steps => targetSteps steps t
  | none => empty

/-- Stores a value at a path. -/
def put (t : Trie α) (path : Text) (v : α) : Trie α := t.alter path (setValue (some v))

/-- Removes the value at a path. -/
def take (t : Trie α) (path : Text) : Trie α := t.alter path (setValue none)

/-- The tree of a list of paths with values; of two values at one path the later stays. -/
def ofPairs (ps : List (Text × α)) : Trie α := ps.foldl (fun t p => t.put p.1 p.2) empty

/-- Puts a value at a path that has none yet. -/
def putNew (t : Trie α) (path : Text) (v : α) : Trie α :=
  t.alter path fun n => if n.value.isSome then n else n.setValue (some v)

/-! ## Attempts -/

/-- The node at a path. -/
def tryFind (t : Trie α) (path : Text) : Attempt (Option (Trie α)) := (Attempt.steps path).map t.findSteps

/-- The value at a path. -/
def tryGet (t : Trie α) (path : Text) : Attempt (Option α) := (t.tryFind path).map fun n => n.bind value

/-- Changes the node at a path. -/
def tryAlter (t : Trie α) (path : Text) (f : Trie α → Trie α) : Attempt (Trie α) :=
  (Attempt.steps path).map fun steps => alterSteps f steps t

/-- The tree of a list of paths with values; of two values at one path the later stays. -/
def tryOfPairs (ps : List (Text × α)) : Attempt (Trie α) :=
  ps.foldlM (fun t p => t.tryAlter p.1 (setValue (some p.2))) empty

/-- Puts a value at a path that has none yet. -/
def tryPutNew (t : Trie α) (path : Text) (v : α) : Attempt (Trie α) :=
  t.tryAlter path fun n => if n.value.isSome then n else n.setValue (some v)

end Trie

end LayeredConfig
