/-!
# Why a glob is refused
-/

namespace AccessPolicy

/-- The reasons for which a pattern has no compiled form. Each names the
pattern as it was given. -/
inductive PatternError where
  /-- A brace without a partner, at an offset in bytes. -/
  | unbalancedBrace (pattern : String) (offset : Nat)
  /-- Nothing but blanks. -/
  | empty
  /-- A parenthesis that does not close. -/
  | unclosedGroup (pattern : String)
  /-- The expression that the pattern stands for cannot be read. -/
  | unreadable (pattern : String)
deriving DecidableEq, Repr

/-- What went wrong, in words. -/
def PatternError.message : PatternError → String
  | unbalancedBrace pattern offset =>
    s!"unbalanced brace group in pattern '{pattern}' at offset {offset}"
  | empty => "pattern is empty and cannot be anchored"
  | unclosedGroup pattern => s!"invalid pattern '{pattern}': unclosed group"
  | unreadable pattern => s!"invalid pattern '{pattern}': not a regular expression"

end AccessPolicy
