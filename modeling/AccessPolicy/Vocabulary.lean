/-!
# The words of a policy

A rule allows or denies. It governs objects of one kind and lists permissions,
and each permission tells which way data flows between a subject and an object.
All of these words have one spelling, and no two have the same.
-/

namespace AccessPolicy

/-- Whether a rule allows or denies. -/
inductive Qualifier where
  | allow
  | deny
deriving DecidableEq, Repr

namespace Qualifier

/-- How a qualifier is spelled. -/
def toText : Qualifier → String
  | allow => "ALLOW"
  | deny => "DENY"

/-- The qualifier with a spelling. -/
def ofText? : String → Option Qualifier
  | "ALLOW" => some allow
  | "DENY" => some deny
  | _ => none

/-- A spelling is read back. -/
theorem ofText?_toText (q : Qualifier) : ofText? q.toText = some q := by
  cases q <;> rfl

end Qualifier

/-- What a subject may do to an object. -/
inductive Permission where
  | call
  | execute
  | publish
  | subscribe
  | rosCall
  | rosExecute
  | rosPublish
  | rosSubscribe
deriving DecidableEq, Repr

namespace Permission

/-- All permissions, in their order. -/
def all : List Permission :=
  [call, execute, publish, subscribe, rosCall, rosExecute, rosPublish, rosSubscribe]

/-- How a permission is spelled. -/
def toText : Permission → String
  | call => "call"
  | execute => "execute"
  | publish => "publish"
  | subscribe => "subscribe"
  | rosCall => "ros_call"
  | rosExecute => "ros_execute"
  | rosPublish => "ros_publish"
  | rosSubscribe => "ros_subscribe"

/-- The permission with a spelling. -/
def ofText? (text : String) : Option Permission :=
  all.find? fun p => p.toText == text

theorem mem_all (p : Permission) : p ∈ all := by
  cases p <;> decide

/-- No two permissions have the same spelling. -/
theorem toText_inj {p q : Permission} (h : p.toText = q.toText) : p = q := by
  cases p <;> cases q <;> first | rfl | exact absurd h (by decide)

/-- A spelling is read back. -/
theorem ofText?_toText (p : Permission) : ofText? p.toText = some p := by
  cases p <;> rfl

end Permission

/-- What sort of object a rule governs. -/
inductive ObjectKind where
  | topic
  | service
  | action
  | rosTopic
  | rosService
  | rosAction
  | rosParameter
deriving DecidableEq, Repr

namespace ObjectKind

/-- All kinds, in their order. -/
def all : List ObjectKind :=
  [topic, service, action, rosTopic, rosService, rosAction, rosParameter]

/-- The place of a kind in that order. -/
def rank : ObjectKind → Nat
  | topic => 0
  | service => 1
  | action => 2
  | rosTopic => 3
  | rosService => 4
  | rosAction => 5
  | rosParameter => 6

/-- How a kind is spelled. -/
def toText : ObjectKind → String
  | topic => "topic"
  | service => "service"
  | action => "action"
  | rosTopic => "ros_topic"
  | rosService => "ros_service"
  | rosAction => "ros_action"
  | rosParameter => "ros_parameter"

/-- The kind with a spelling. -/
def ofText? (text : String) : Option ObjectKind :=
  all.find? fun k => k.toText == text

/-- No two kinds have the same spelling. -/
theorem toText_inj {k l : ObjectKind} (h : k.toText = l.toText) : k = l := by
  cases k <;> cases l <;> first | rfl | exact absurd h (by decide)

/-- A spelling is read back. -/
theorem ofText?_toText (k : ObjectKind) : ofText? k.toText = some k := by
  cases k <;> rfl

end ObjectKind

/-- Which way data flows, seen from the subject. -/
inductive Flow where
  | outbound
  | inbound
deriving DecidableEq, Repr

/-- How a direction is spelled. -/
def Flow.toText : Flow → String
  | outbound => "outbound"
  | inbound => "inbound"

/-- The way data flows under a permission: a publisher and a caller send to the
object, a subscriber and a server receive from it. -/
def Permission.flow : Permission → Flow
  | publish | call | rosPublish | rosCall => .outbound
  | subscribe | execute | rosSubscribe | rosExecute => .inbound

end AccessPolicy
