import AccessPolicy.Error
import AccessPolicy.Text.Blank
import AccessPolicy.Vocabulary

/-!
# Endpoints of a network

A participant of a network has endpoints through which it publishes and
subscribes. The first two bytes of a name space tell what an endpoint is for: a
topic, the requests of a service or its replies. They stand at the front of the
partition of the endpoint, or of its topic name when it has no partition.
`Synthesis.classify` reads off what an endpoint shows its participant to do.
-/

namespace AccessPolicy

namespace Discovery

open AccessPolicy.Text

/-- Whether an endpoint writes or reads. -/
inductive Direction where
  | publication
  | subscription
deriving DecidableEq, Repr

/-- How a direction is spelled. -/
def Direction.toText : Direction → String
  | publication => "publication"
  | subscription => "subscription"

/-- One publication or subscription. -/
structure Endpoint where
  topic : String
  partition : Option String := none
deriving DecidableEq, Repr

/-- What an endpoint is for. -/
inductive EndpointKind where
  | rosTopic
  | rosRequest
  | rosReply
deriving DecidableEq, Repr

namespace EndpointKind

/-- How a kind is spelled. -/
def toText : EndpointKind → String
  | rosTopic => "ros_topic"
  | rosRequest => "ros_request"
  | rosReply => "ros_reply"

/-- The two bytes at the front of a name space that tell the kind. -/
def code : EndpointKind → String
  | rosTopic => "rt"
  | rosRequest => "rq"
  | rosReply => "rr"

/-- The kind that a code tells. -/
def ofCode? (code : String) : Option EndpointKind :=
  [rosTopic, rosRequest, rosReply].find? fun kind => kind.code == code

/-- A code is read back. -/
theorem ofCode?_code (kind : EndpointKind) : ofCode? kind.code = some kind := by
  cases kind <;> rfl

/-- The kind of object behind an endpoint. -/
def objectKind : EndpointKind → ObjectKind
  | rosTopic => .rosTopic
  | rosRequest => .rosService
  | rosReply => .rosService

/-- What is appended to the name of a service for its requests and replies. -/
def suffix? : EndpointKind → Option String
  | rosTopic => none
  | rosRequest => some "Request"
  | rosReply => some "Reply"

/-- Drops a suffix from the end of a text that has it. -/
def dropSuffix (suffix name : List Char) : List Char :=
  if suffix.isSuffixOf name then name.take (name.length - suffix.length) else name

/-- The name of a service without what was appended to it. -/
def stripSuffix (kind : EndpointKind) (name : String) : String :=
  match kind.suffix? with
  | none => name
  | some suffix => String.ofList (dropSuffix suffix.toList name.toList)

/-- The permission that an endpoint needs. Clients publish requests and
subscribe to replies, and servers the other way round. -/
def permission (kind : EndpointKind) (direction : Direction) : Permission :=
  match direction, kind with
  | .publication, rosTopic => .rosPublish
  | .publication, rosRequest => .rosCall
  | .publication, rosReply => .rosExecute
  | .subscription, rosTopic => .rosSubscribe
  | .subscription, rosRequest => .rosExecute
  | .subscription, rosReply => .rosCall

end EndpointKind

/-- A name cut behind its first two bytes, if it can be cut there. -/
def splitCode? (name : String) : Option (String × String) :=
  (splitAtByte? 2 name.toList).map fun (front, back) => (String.ofList front, String.ofList back)

/-- The code of a partition: its first two bytes, or all of it if it cannot be
cut there. -/
def partitionCode (partition : String) : String :=
  ((splitCode? partition).map Prod.fst).getD partition

/-- The name of an object whose topic is in a partition: the partition without
its code is a name space, and the topic stands below it. -/
def remap (partition topic : String) : String :=
  ((splitCode? partition).map Prod.snd).getD "" ++ "/" ++ topic

/-- How endpoints are turned into policies. -/
structure Synthesis where
  /-- Put before the names of participants. -/
  subjectPrefix : String := "/"
  /-- Whether an endpoint with an unknown code is an error. It is passed over
  otherwise. -/
  strictCodes : Bool := false
  /-- Whether the names of services lose what was appended to them. -/
  stripSuffixes : Bool := true
deriving DecidableEq, Repr

/-- Why no policy can be derived. -/
inductive Error where
  | policy (e : PolicyError)
  | unknownCode (code : String) (topic : String)
deriving DecidableEq, Repr

/-- What went wrong, in words. -/
def Error.message : Error → String
  | policy e => e.message
  | unknownCode code topic => s!"Unknown namespace prefix '{code}' on topic '{topic}'"

/-- A permission on an object. -/
structure Grant where
  kind : ObjectKind
  object : String
  permission : Permission
deriving DecidableEq, Repr

/-- The code of an endpoint, and the name of the object behind it. -/
def Endpoint.codeAndName (endpoint : Endpoint) : String × String :=
  match endpoint.partition with
  | some partition => (partitionCode partition, remap partition endpoint.topic)
  | none => (splitCode? endpoint.topic).getD (endpoint.topic, "")

/-- What an endpoint shows its participant to do. -/
def Synthesis.classify (config : Synthesis) (direction : Direction) (endpoint : Endpoint) :
    Except Error (Option Grant) :=
  let (code, name) := endpoint.codeAndName
  match EndpointKind.ofCode? code with
  | none =>
    if config.strictCodes then .error (.unknownCode code endpoint.topic) else .ok none
  | some kind =>
    let object := if config.stripSuffixes then kind.stripSuffix name else name
    .ok (some ⟨kind.objectKind, object, kind.permission direction⟩)

end Discovery

end AccessPolicy
