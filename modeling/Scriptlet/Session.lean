import Scriptlet.Fault
import Scriptlet.Store
import Scriptlet.Value.Render

/-!
# Sessions

A session is what evaluations leave behind for later ones: the scopes, the text
printed, and the counters from which new identities come. While an evaluation
runs, the session also knows the current scope and the calls in progress. A
session may record what happens to its names and calls.
-/

namespace Scriptlet

/-- Something that a session records. -/
inductive Event where
  | set (name : String) (value : Value)
  /-- A look-up that went on to a parent so many times. -/
  | get (name : String) (hops : Nat)
  | call (params : List String)

/-- The lines that report an event. -/
def Event.report : Event → List String
  | .set name value => ["Set " ++ name ++ " -> " ++ value.outline]
  | .get name hops =>
      let line := "Get " ++ name
      line :: (List.replicate hops [line ++ " from parent", line]).flatten
  | .call params => ["Call fn(" ++ commaSeparated params ++ ")"]

/-- The native functions that a session offers, with the latest first. -/
abbrev Natives := List Native

namespace Natives

/-- Adds a native function, which replaces an earlier one of its name. -/
def register (natives : Natives) (name : String) (routine : Routine) : Natives :=
  ⟨name, routine⟩ :: natives

def get? (natives : Natives) (name : String) : Option Native :=
  natives.find? fun native => native.name == name

/-- Registers bodies under their own names. -/
def ofRoutines (routines : List Routine) : Natives :=
  routines.foldl (fun natives routine => natives.register routine.name routine) []

/-- The natives that work on texts and arrays. -/
def collections : List Routine := [.len, .first, .last, .rest, .push]

/-- The natives that print. -/
def printing : List Routine := [.puts]

def standard : Natives := ofRoutines (collections ++ printing)

end Natives

structure Session where
  store : Store
  /-- The current scope: the global one unless a call is in progress. -/
  scope : ScopeId
  /-- The number of script calls in progress. -/
  depth : Nat
  natives : Natives
  /-- What was printed. -/
  output : String
  /-- The events so far with the latest first, if the session records them. -/
  trace? : Option (List Event)
  /-- The number of arrays made. -/
  births : Nat
  /-- The number of function literals in the programs run. -/
  literals : Nat

namespace Session

/-- A session in which nothing has happened. -/
def start (natives : Natives) (recording : Bool) : Session :=
  let (scope, store) := Store.empty.create none
  { store, scope, depth := 0, natives, output := "", births := 0, literals := 0,
    trace? := if recording then some [] else none }

/-- Records an event, if events are recorded. -/
def observe (session : Session) (event : Event) : Session :=
  { session with trace? := session.trace?.map (event :: ·) }

/-- Binds a name in the current scope. -/
def set (session : Session) (name : String) (value : Value) : Session :=
  let session := session.observe (.set name value)
  { session with store := session.store.set session.scope name value }

/-- Looks a name up from the current scope outwards. -/
def get (session : Session) (name : String) : Option Value × Session :=
  let found := session.store.search session.scope name
  (found.value?, session.observe (.get name found.hops))

/-- Prints a text. -/
def print (session : Session) (text : String) : Session :=
  { session with output := session.output ++ text }

/-- Makes a new array. -/
def makeArray (session : Session) (elements : List Value) : Value × Session :=
  (.array session.births elements, { session with births := session.births + 1 })

/-- Begins a call: in a new scope inside the one of the function, with its
parameters bound in order. -/
def enter (session : Session) (f : Closure) (args : List Value) : Session :=
  let (scope, store) := session.store.create (some f.scope)
  let session := { session with store, scope, depth := session.depth + 1 }
  let session := (f.params.zip args).foldl (fun session arg => session.set arg.1 arg.2) session
  session.observe (.call f.params)

/-- Ends a call and goes back to the scope of the caller. -/
def leave (session : Session) (caller : ScopeId) : Session :=
  { session with scope := caller, depth := session.depth - 1 }

/-- Takes out what was printed and recorded, the lines of the record in order. -/
def takeReport (session : Session) : (String × List String) × Session :=
  ((session.output, ((session.trace?.getD []).reverse.map Event.report).flatten),
    { session with output := "", trace? := session.trace?.map fun _ => [] })

end Session

/-- Why an evaluation stops before its end: a fault, or a return on its way to
the call that it ends. -/
inductive Unwind where
  | fault (fault : Fault)
  | returned (value : Value)

/-- An evaluation, which changes a session whether it succeeds or not. -/
abbrev Eval (α : Type) := EStateM Unwind Session α

namespace Eval

/-- The outcome of an operation that needs no session. -/
def ofExcept {α : Type} : Except Fault α → Eval α
  | .ok a => pure a
  | .error fault => throw (.fault fault)

/-- A new array as the value. -/
def makeArray (elements : List Value) : Eval Value :=
  modifyGet fun session => session.makeArray elements

end Eval

end Scriptlet
