import LayeredConfig.File
import LayeredConfig.Pipeline.Basic

/-!
# `LayeredConfig.Pipeline.Assembly` — putting a configuration together

The parts of a configuration are collected first and put together once: sources are ranked, stages ordered,
and the active profiles read through the stages inside the profile stage.

## Contents
- **`Parts`.** Everything that goes into a configuration.
- **Steps.** `sourceList`, `stageList`, `activeProfiles`.
- **`Parts.assemble`.** The configuration, for a reader who may not see secrets.
- **Attempts.** `Parts.tryAssemble` breaks off where a path of the defaults, of the ignored paths or of a question does.
-/

namespace LayeredConfig

/-- The property that lists the active profiles. -/
def profileProperty : Text := "config.profile".toList

/-- The property that names the profile from which all active ones inherit. -/
def profileParentProperty : Text := "config.profile.parent".toList

/-- Everything that goes into a configuration. -/
structure Parts where
  sources : List Source
  files : List FileRequest
  environment : Option EnvironmentSource
  defaults : List (Text × Text)
  /-- The active profiles, later ones more specific; when absent they are read from a property. -/
  profiles : Option (List Text)
  profileProperty : Text
  stages : List Stage
  relocations : List (Text × Text)
  fallbacks : List (Text × Text)
  secretPatterns : List Text
  expressions : Bool
  schemas : List Schema
  ignoredPaths : List Text
  refusesUndeclared : Bool

namespace Parts

/-- A configuration without sources in which references are expanded. -/
def empty : Parts where
  sources := []
  files := []
  environment := none
  defaults := []
  profiles := none
  profileProperty := LayeredConfig.profileProperty
  stages := []
  relocations := []
  fallbacks := []
  secretPatterns := []
  expressions := true
  schemas := []
  ignoredPaths := []
  refusesUndeclared := false

/-! ## Sources -/

/-- The names that any schema declares. -/
def declaredNames (p : Parts) : List Text := p.schemas.flatMap Schema.declaredNames

/-- The default values: those given, then those of the schemas. -/
def defaultPairs (p : Parts) : List (Text × Text) := p.defaults ++ p.schemas.flatMap Schema.defaults

/-- All sources in the order of registration, the defaults last, and told the declared names. -/
def sourceList (p : Parts) (files : List TableSource) : List Source :=
  let all := p.sources ++ files.map .table ++ (p.environment.map Source.environment).toList ++
    [.defaults (Source.defaultsOfPairs p.defaultPairs)]
  if p.declaredNames.isEmpty then all else all.map (Source.reconcile p.declaredNames)

/-! ## Stages -/

/-- A renaming stage by a table, unless the table is empty. -/
def tableStage (make : (Text → Option Text) → Stage) (pairs : List (Text × Text)) : List Stage :=
  if pairs.isEmpty then [] else [make (Stage.byTable (.ofPairs pairs))]

/-- All stages but that of the profiles: those of the application, then those of the library. -/
def stageList (p : Parts) : List Stage :=
  p.stages ++ [.logging] ++ (if p.expressions then [.expression] else []) ++
    (if p.secretPatterns.isEmpty then [] else [.secret (.ofPatterns p.secretPatterns)]) ++
    tableStage .relocate p.relocations ++ tableStage .fallback p.fallbacks

/-! ## Profiles -/

/-- The active profiles, read through the stages inside the profile stage by a reader who may not see
secrets. -/
def activeProfiles (p : Parts) (registry : Registry) (chain : Chain) : List Text :=
  let inner := chain.inside Stage.profilePriority
  match p.profiles with
  | some ps =>
      inner.withParentProfile registry .locked (Profile.listed (Text.joinWith ',' ps))
        profileParentProperty
  | none => inner.activeProfiles registry .locked p.profileProperty profileParentProperty

/-! ## Assembly -/

/-- The tree of the paths that are not checked against the schemas. -/
def ignoredTree (p : Parts) : Trie Unit := .ofPairs (p.ignoredPaths.map fun path => (path, ()))

/-- The pipeline over finished sources. -/
def pipeline (p : Parts) (files : List TableSource) : Pipeline :=
  let registry := Registry.ofSources (p.sourceList files)
  let chain := Chain.ofStages p.stageList
  let profiles := p.activeProfiles registry chain
  { registry, chain := chain.insert (.profile profiles), profiles, schemas := p.schemas,
    declared := .ofPatterns p.declaredNames, ignored := p.ignoredTree }

/-- The configuration. A file that cannot be read is an error, and so are undeclared names where they are
refused. -/
def assemble (p : Parts) (reader : Reader) (dir : Directory) : Except ConfigError Config := do
  let files ← p.files.mapM fun f => f.load reader dir
  let config : Config := ⟨p.pipeline files, .locked⟩
  let names := if p.refusesUndeclared then config.undeclaredNames else []
  if names.isEmpty then return config else throw (.undeclared names)

/-! ## Attempts -/

/-- The active profiles, read through the stages inside the profile stage. -/
def tryActiveProfiles (p : Parts) (registry : Registry) (chain : Chain) : Attempt (List Text) :=
  let inner := chain.inside Stage.profilePriority
  match p.profiles with
  | some ps =>
      inner.tryWithParentProfile registry .locked (Profile.listed (Text.joinWith ',' ps))
        profileParentProperty
  | none => inner.tryActiveProfiles registry .locked p.profileProperty profileParentProperty

/-- The pipeline over finished sources. The defaults are made first, then the profiles are read, then the ignored paths
are put together. -/
def tryPipeline (p : Parts) (files : List TableSource) : Attempt Pipeline := do
  let _ ← Source.tryDefaults p.defaultPairs
  let _ ← p.tryActiveProfiles (.ofSources (p.sourceList files)) (.ofStages p.stageList)
  let _ ← Trie.tryOfPairs (p.ignoredPaths.map fun path => (path, ()))
  return p.pipeline files

/-- The configuration. Files are loaded before anything is cut into steps, and undeclared names are looked for only where
they are refused. -/
def tryAssemble (p : Parts) (reader : Reader) (dir : Directory) : Attempt (Except ConfigError Config) :=
  match p.files.mapM fun f => f.load reader dir with
  | .error e => .ok (.error e)
  | .ok files => do
      let pipeline ← p.tryPipeline files
      if p.refusesUndeclared then
        let _ ← (Config.mk pipeline .locked).tryUndeclaredNames
      return p.assemble reader dir

end Parts

end LayeredConfig
