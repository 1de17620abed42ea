import LayeredConfig.Pipeline.Assembly

/-!
# `LayeredConfig.Scope` — one configuration for each scope

Parts of a program that need configurations of their own, such as plugins or tenants, register them under a
scope.

## Contents
- **`Scopes`.** Configurations by scope: `get?`, `register`, `ensure`, `release`, each with what is
  registered afterwards.
-/

namespace LayeredConfig

/-- Configurations by scope; a scope stands in the list at most once. -/
structure Scopes (σ : Type) where
  entries : List (σ × Config)

namespace Scopes

variable {σ : Type} [DecidableEq σ]

/-- No configuration is registered. -/
def empty : Scopes σ := ⟨[]⟩

/-- The configuration of a scope. -/
def get? (s : Scopes σ) (scope : σ) : Option Config := lookupKey scope s.entries

/-- The other scopes. -/
def without (s : Scopes σ) (scope : σ) : Scopes σ := ⟨s.entries.filter fun e => e.1 != scope⟩

/-- Registers a configuration, and returns the one that it replaces. -/
def register (s : Scopes σ) (scope : σ) (c : Config) : Option Config × Scopes σ :=
  (s.get? scope, ⟨(scope, c) :: (s.without scope).entries⟩)

/-- The configuration of a scope, which is built and registered when there is none. The second answer says
whether it was built; a failure to build registers nothing. -/
def ensure {ε : Type} (s : Scopes σ) (scope : σ) (build : Except ε Config) :
    Except ε (Config × Bool) × Scopes σ :=
  match s.get? scope with
  | some c => (.ok (c, false), s)
  | none => match build with
    | .ok c => (.ok (c, true), (s.register scope c).2)
    | .error e => (.error e, s)

/-- Removes the configuration of a scope, and returns it. -/
def release (s : Scopes σ) (scope : σ) : Option Config × Scopes σ :=
  (s.get? scope, s.without scope)

/-- The number of scopes with a configuration. -/
def size (s : Scopes σ) : Nat := s.entries.length

end Scopes

end LayeredConfig
