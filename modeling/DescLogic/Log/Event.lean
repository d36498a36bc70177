import DescLogic.Text.Joined
import DescLogic.Text.Quoted
/-!
# Log events

An event has a level, named fields and a message. Its threshold says how chatty it is: it is
written if its threshold is at most the threshold of the log, and in any case if it has none.

A threshold that is not a number of one byte counts as the greatest one, so a bad threshold hides
an event and never brings one forward.
-/

namespace DescLogic

/-- What an event is about. -/
inductive Severity where
  /-- The program cannot go on. -/
  | critical
  /-- Something failed. -/
  | error
  /-- Something is not as it should be. -/
  | warning
  /-- Progress. -/
  | info
  /-- Registrations. -/
  | debug
  /-- Single steps. -/
  | trace
deriving DecidableEq, Repr

/-- The level of a log line. -/
inductive LogLevel where
  | error
  | warn
  | info
  | debug
  | trace
deriving DecidableEq, Repr

/-- The level in capitals, five characters wide and flush right. -/
def LogLevel.text : LogLevel → String
  | error => "ERROR"
  | warn => " WARN"
  | info => " INFO"
  | debug => "DEBUG"
  | trace => "TRACE"

/-- The value of a field. -/
inductive LogValue where
  /-- A number. -/
  | int (i : Int)
  /-- A truth value. -/
  | bool (b : Bool)
  /-- A text. -/
  | text (s : String)
deriving DecidableEq, Repr

/-- A named value. -/
structure LogField where
  /-- The name. -/
  name : String
  /-- The value. -/
  value : LogValue
deriving DecidableEq, Repr

/-- A log event. -/
structure LogEvent where
  /-- The level. -/
  level : LogLevel
  /-- The fields in their order. -/
  fields : List LogField
  /-- The message. -/
  message : String
deriving DecidableEq, Repr

/-- The level at which events of a severity are written. -/
def Severity.level : Severity → LogLevel
  | critical | error => .error
  | warning => .warn
  | info => .info
  | debug => .debug
  | trace => .trace

/-- The written form of a truth value. -/
def boolText (b : Bool) : String := if b then "true" else "false"

namespace LogField

/-- The greatest threshold. -/
def maxThreshold : Nat := 255

/-- The threshold that a field sets, if it is the threshold field. -/
def threshold? (f : LogField) : Option Nat :=
  if f.name = "threshold" then
    match f.value with
    | .int i => if 0 ≤ i ∧ i ≤ maxThreshold then some i.toNat else some maxThreshold
    | _ => some maxThreshold
  else none

/-- A field as it stands in front of the message. The field that marks critical events shows as a
bare mark, and the threshold does not show unless it is a truth value. -/
def text (f : LogField) : String :=
  match f.name, f.value with
  | "critical", .bool b => if b then "[CRITICAL] " else ""
  | "critical", .text _ => "[CRITICAL] "
  | "threshold", .int _ => ""
  | "threshold", .text _ => ""
  | name, .int i => name ++ "=" ++ toString i ++ " "
  | name, .bool b => name ++ "=" ++ boolText b ++ " "
  | name, .text s => name ++ "=" ++ Text.quoted s ++ " "

end LogField

namespace LogEvent

/-- An event of a severity with a threshold. -/
def ofSeverity (severity : Severity) (threshold : LogValue) (message : String) : LogEvent :=
  let mark := if severity = .critical then [⟨"critical", .bool true⟩] else []
  ⟨severity.level, mark ++ [⟨"threshold", threshold⟩], message⟩

/-- An event of a severity whose threshold is a number. -/
def atThreshold (severity : Severity) (threshold : Nat) (message : String) : LogEvent :=
  ofSeverity severity (.int threshold) message

/-- The threshold of an event: that of its last threshold field. -/
def threshold? (e : LogEvent) : Option Nat := (e.fields.filterMap LogField.threshold?).getLast?

/-- Is the event written to a log with this threshold? -/
def isShown (logThreshold : Nat) (e : LogEvent) : Bool :=
  match e.threshold? with
  | some t => t ≤ logThreshold
  | none => true

/-- The level, the fields and the message. -/
def text (e : LogEvent) : String :=
  e.level.text ++ " " ++ String.join (e.fields.map LogField.text) ++ e.message

/-- The lines that an event adds to a log. A line end in the message starts another line. -/
def lines (logThreshold : Nat) (e : LogEvent) : List String :=
  if e.isShown logThreshold then e.text.splitOn "\n" else []

end LogEvent

end DescLogic
