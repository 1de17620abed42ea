import LayeredConfig.Chain

/-!
# `LayeredConfig.Log` — what the logging stages report

A logging stage reports every lookup that passes it: its value, or that there is none. Secret values are
never shown. For a reader who may see secrets the stage asks once more as a reader who may not, to learn
whether the value is secret; that lookup is reported by the logging stages inside it.

## Contents
- **`LogEvent`.** A report and its fields in writing.
- **`Chain.events`.** The reports of one lookup in order; `Chain.tryEvents` where the lookup may break off.
-/

namespace LayeredConfig

/-- A report of a logging stage. -/
inductive LogEvent where
  | resolved (name value location : Text) (profile : Option Text)
  | missing (name : Text)
  deriving DecidableEq, Repr

namespace LogEvent

/-- How much detail a reader has to ask for to see a report. -/
def level : LogEvent → Text
  | resolved .. => "DEBUG".toList
  | missing _ => "TRACE".toList

/-- The wording of a report. -/
def message : LogEvent → Text
  | resolved .. => "resolved configuration property".toList
  | missing _ => "configuration property not found".toList

/-- All fields of a report by name. -/
def fields (e : LogEvent) : List (Text × Text) :=
  [("level".toList, e.level), ("message".toList, e.message)] ++
    match e with
    | resolved name value location profile =>
        [("name".toList, name), ("value".toList, value), ("location".toList, location)] ++
          (profile.map fun p => ("profile".toList, p)).toList
    | missing name => [("name".toList, name)]

/-- What is shown in place of a secret value. -/
def hiddenValue : Text := "<redacted>".toList

/-- The report of a lookup. -/
def ofLookup (name : Text) (secret : Bool) : Option Record → LogEvent
  | some r =>
      .resolved name (if secret then hiddenValue else r.value.getD []) r.location r.profile
  | none => .missing name

end LogEvent

namespace Chain

/-- Whether a logging stage asks once more as a reader who may not see secrets. -/
def asksAgain (access : Access) (found : Option Record) : Bool :=
  match found with
  | some r => access == .unlocked && !r.isRedacted
  | none => false

/-- The reports of a lookup in a list of stages, in order: those of the lookups it makes inward, then the
stage's own. -/
def eventsIn (registry : Registry) : List Stage → Access → Text → List LogEvent
  | [], _, _ => []
  | s :: inner, access, name =>
      let found := lookupIn registry access inner
      let within := (s.asked found name).flatMap (eventsIn registry inner access)
      match s with
      | .logging =>
          let r := found name
          let again := asksAgain access r
          let lockedRecord := if again then lookupIn registry .locked inner name else none
          let repeated := if again then eventsIn registry inner .locked name else []
          let secret := (r.map Record.isRedacted).getD false || (lockedRecord.map Record.isRedacted).getD false
          within ++ repeated ++ [LogEvent.ofLookup name secret r]
      | _ => within

/-- The reports of one lookup in order. -/
def events (c : Chain) (registry : Registry) (access : Access) (name : Text) : List LogEvent :=
  eventsIn registry c.stages access name

/-- Makes the lookups of a reported lookup: those of the stages and those that the logging stages repeat. -/
def tryReportIn (registry : Registry) : List Stage → Access → Text → Attempt Unit
  | [], _, name => (registry.tryResolve name).map fun _ => ()
  | s :: inner, access, name => do
      let found := Attempt.found (tryLookupIn registry access inner)
      Attempt.each (tryReportIn registry inner access) (s.asked found name)
      match s with
      | .logging => if asksAgain access (found name) then tryReportIn registry inner .locked name else return ()
      | _ => return ()

/-- The reports of one lookup in order. -/
def tryEvents (c : Chain) (registry : Registry) (access : Access) (name : Text) : Attempt (List LogEvent) := do
  tryReportIn registry c.stages access name
  return c.events registry access name

end Chain

end LayeredConfig
