import AccessPolicy.Rule.Basic

/-!
# Resolving one permission on one object

A rule that denies wins over every rule that allows, and what no rule speaks
about is denied. The order of the rules has no influence. All attachments of
all rules are compiled before the first is matched, so that a pattern that does
not compile is reported wherever it stands.
-/

namespace AccessPolicy

/-- Why a permission is allowed or denied. -/
inductive Resolution where
  | explicitDeny
  | explicitAllow
  | noMatch
deriving DecidableEq, Repr

namespace Resolution

/-- Whether the permission is allowed. -/
def qualifier : Resolution → Qualifier
  | explicitAllow => .allow
  | explicitDeny => .deny
  | noMatch => .deny

/-- How a resolution is spelled. -/
def toText : Resolution → String
  | explicitDeny => "explicit_deny"
  | explicitAllow => "explicit_allow"
  | noMatch => "no_match"

end Resolution

/-- Compiles all attachments of some rules. -/
def compileAttachments (rules : List Rule) : Cached Unit :=
  (rules.flatMap (·.attachments)).forM fun pattern => discard (Cache.compile pattern)

/-- Looks for rules that apply, where `allowed` tells whether one that allows
was met. The first that denies ends the search. -/
def searchRules (object : String) (permission : Permission) (allowed : Bool) :
    List Rule → Cached Resolution
  | [] => return if allowed then .explicitAllow else .noMatch
  | rule :: rules => do
    if ← rule.appliesTo object permission then
      match rule.qualifier with
      | .deny => return .explicitDeny
      | .allow => searchRules object permission true rules
    else searchRules object permission allowed rules

/-- Resolves a permission on an object against some rules. -/
def resolve (rules : List Rule) (object : String) (permission : Permission) :
    Cached Resolution := do
  compileAttachments rules
  searchRules object permission false rules

end AccessPolicy
