import AccessPolicy.Graph.Basic
import AccessPolicy.Store.Basic

/-!
# The graph of a store

Every attachment of a profile becomes a subject, and every attachment of a rule
that the profile holds itself becomes an object of the rule's kind. Each
permission of the rule adds an edge between the two. Rules that deny add edges
like those that allow.
-/

namespace AccessPolicy

namespace AccessGraph

/-- Adds what a rule says about a subject and one object. -/
def addGrant (subject : Nat) (rule : Rule) (g : AccessGraph) (object : String) : AccessGraph :=
  let (g, index) := g.addObject rule.kind object
  rule.permissions.foldl (fun g permission => g.connect subject index permission) g

/-- Adds what a rule says about a subject. -/
def addRule (subject : Nat) (g : AccessGraph) (rule : Rule) : AccessGraph :=
  rule.attachments.foldl (addGrant subject rule) g

/-- Adds a subject with the rules of a profile. -/
def addSubjectRules (rules : List Rule) (g : AccessGraph) (subject : String) : AccessGraph :=
  let (g, index) := g.addSubject subject
  rules.foldl (addRule index) g

/-- Adds the subjects of a profile with the rules that it holds itself. -/
def addProfile (g : AccessGraph) (profile : Profile) : AccessGraph :=
  profile.attachments.foldl (addSubjectRules profile.rules) g

/-- The graph of all profiles of a store. -/
def ofStore (store : Store) : AccessGraph :=
  store.walk.foldl addProfile empty

end AccessGraph

end AccessPolicy
