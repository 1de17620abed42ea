import LayeredConfig.Schema.Decode

/-!
# `LayeredConfig.Server` — the settings of a server

A typed record for the settings of a server: how it is decoded from a bound schema and when it is valid.

## Contents
- **`Server`.** The settings; `Server.decode` reads them.
- **Validation.** `Server.problems`, `Server.check`; `Config.validatedServer` binds, decodes and checks.
-/

namespace LayeredConfig

/-- A certificate and the key that belongs to it. -/
structure Tls where
  cert : Text
  key : Option Text

/-- A path that is served, and how long an answer may take. -/
structure Route where
  path : Text
  timeout : Nat

/-- A server that answers in this one's place. -/
structure Backend where
  url : Text
  weight : Nat

/-- The settings of a server. -/
structure Server where
  host : Text
  port : Nat
  name : Option Text
  maxThreads : Nat
  tls : Option Tls
  tags : List Text
  routes : List Route
  labels : List (Text × Text)
  aliases : List (Text × List Text)
  backends : List (Text × Backend)

namespace Server

open Decode

/-! ## Decoding -/

/-- The settings of encryption. -/
def decodeTls : Decoder Tls := fun t => do
  return ⟨← member 0 "cert".toList text t, ← optionalMember 1 "key".toList text t⟩

/-- A route. -/
def decodeRoute : Decoder Route := fun t => do
  return ⟨← member 0 "path".toList text t, ← member 1 "timeout".toList (natural 32) t⟩

/-- A backend. -/
def decodeBackend : Decoder Backend := fun t => do
  return ⟨← member 0 "url".toList text t, ← member 1 "weight".toList (natural 32) t⟩

/-- The settings of a server; members it does not know are passed over. -/
def decode : Decoder Server := fun t => do
  return {
    host := ← member 0 "host".toList text t
    port := ← member 1 "port".toList (natural 16) t
    name := ← optionalMember 2 "name".toList text t
    maxThreads := ← member 3 "max-threads".toList (natural 64) t
    tls := ← optionalMember 4 "tls".toList decodeTls t
    tags := ← member 5 "tags".toList (list text) t
    routes := ← member 6 "routes".toList (list decodeRoute) t
    labels := ← member 7 "labels".toList (table text) t
    aliases := ← member 8 "aliases".toList (table (list text)) t
    backends := ← member 9 "backends".toList (table decodeBackend) t }

/-! ## Validation -/

/-- What is wrong with the settings. -/
def problems (s : Server) : List ValidationError :=
  (if s.maxThreads = 0 then
    [.field "max-threads".toList "must be greater than 0".toList] else []) ++
    (if s.host = "forbidden".toList then [.custom "host is forbidden".toList] else [])

/-- The settings if nothing is wrong with them; several faults are reported together. -/
def check (s : Server) : Except ValidationError Server :=
  match s.problems with
  | [] => .ok s
  | [e] => .error e
  | es => .error (.multiple es)

end Server

namespace Config

/-- The server settings of the schema with a root. -/
def server (c : Config) (root : Text) : Except ConfigError Server := do
  match Server.decode (← c.bindRoot root) with
  | some s => return s
  | none => throw .deserialization

/-- The server settings of the schema with a root, if they are valid. -/
def validatedServer (c : Config) (root : Text) : Except ConfigError Server := do
  (← c.server root).check.mapError .validation

end Config

end LayeredConfig
