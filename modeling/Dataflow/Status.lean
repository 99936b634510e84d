import Dataflow.Wire.JsonText
set_option autoImplicit false

/-!
What the last computation of a node had to say: its messages in order, and whether it erred. Adding
an error marks the status as erred. A status that was read from text carries the mark that the text
gives it.
-/

namespace Dataflow

inductive Severity where
  | info | warning | error
  deriving DecidableEq, Repr

namespace Severity

def all : List Severity := [.info, .warning, .error]

def label : Severity → String
  | .info => "info"
  | .warning => "warning"
  | .error => "error"

/-- The name of a severity in written statuses. -/
def name : Severity → String
  | .info => "Info"
  | .warning => "Warning"
  | .error => "Error"

end Severity

structure Status where
  messages : List (Severity × String)
  errored : Bool
  deriving DecidableEq, Repr

namespace Status

def empty : Status := ⟨[], false⟩

def add (s : Status) (severity : Severity) (text : String) : Status :=
  ⟨s.messages ++ [(severity, text)], s.errored || severity == .error⟩

def failed (text : String) : Status := empty.add .error text

/-- Adds the messages of another status one by one, so its mark alone does not count. -/
def append (s t : Status) : Status := t.messages.foldl (fun s m => s.add m.1 m.2) s

def lines (s : Status) : List String := s.messages.map fun m => m.1.label ++ ": " ++ m.2

def text (s : Status) : String := "\n".intercalate s.lines

theorem messages_append (s t : Status) : (s.append t).messages = s.messages ++ t.messages := by
  simp only [append]
  generalize t.messages = ms
  induction ms generalizing s with
  | nil => simp
  | cons m ms ih => rw [List.foldl_cons, ih]; simp [add]

def fieldNames : List String := ["messages", "errored"]

def toWire (s : Status) : Wire :=
  .record [
    (.text "messages", .list (s.messages.map fun m => .list [.text m.1.name, .text m.2])),
    (.text "errored", .bool s.errored)]

/-- A severity is written as its name, or as a record of that name with nothing in it. -/
def readSeverity (w : Wire) : Option Severity := do
  let name ← match w with
    | .record [(k, .null)] => k.asText?
    | w => w.asText?
  Severity.all.find? fun s => s.name = name

def readMessage : Wire → Option (Severity × String)
  | .list [s, t] => do
    let severity ← readSeverity s
    let text ← t.asText?
    pure (severity, text)
  | _ => none

def ofWire? (w : Wire) : Option Status := do
  match ← w.fields fieldNames with
  | [some messages, some errored] =>
    let messages ← (← messages.asList?).mapM readMessage
    let errored ← errored.asBool?
    pure ⟨messages, errored⟩
  | _ => none

def parse (s : String) : Option Status := (Wire.ofJsonText s).bind ofWire?

def render (s : Status) : String := s.toWire.toJsonText

end Status
end Dataflow
