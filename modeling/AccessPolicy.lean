import AccessPolicy.Collection.Distinct
import AccessPolicy.Decimal.Fixed
import AccessPolicy.Discovery.Endpoint
import AccessPolicy.Discovery.Snapshot
import AccessPolicy.Discovery.Synthesis
import AccessPolicy.Document.Basic
import AccessPolicy.Element.Attributes
import AccessPolicy.Element.Basic
import AccessPolicy.Element.Location
import AccessPolicy.Element.Order
import AccessPolicy.Element.Path.Basic
import AccessPolicy.Element.Path.Reader
import AccessPolicy.Element.Xml
import AccessPolicy.Error
import AccessPolicy.Glob.Basic
import AccessPolicy.Glob.Error
import AccessPolicy.Glob.Fragment
import AccessPolicy.Glob.Token
import AccessPolicy.Graph.Basic
import AccessPolicy.Graph.Build
import AccessPolicy.Graph.Dot
import AccessPolicy.Graph.Evaluate
import AccessPolicy.Graph.Indexed
import AccessPolicy.Graph.Resolve
import AccessPolicy.Pattern.Basic
import AccessPolicy.Pattern.Cache
import AccessPolicy.Profile.Basic
import AccessPolicy.Profile.Element
import AccessPolicy.Profile.Filter
import AccessPolicy.Profile.Merge
import AccessPolicy.Profile.Order
import AccessPolicy.Proofs.Collection.Answers
import AccessPolicy.Proofs.Collection.Distinct
import AccessPolicy.Proofs.Collection.Sorted
import AccessPolicy.Proofs.Discovery.Granted
import AccessPolicy.Proofs.Discovery.Layout
import AccessPolicy.Proofs.Discovery.Names
import AccessPolicy.Proofs.Discovery.Observed
import AccessPolicy.Proofs.Discovery.Reload
import AccessPolicy.Proofs.Discovery.Spellings
import AccessPolicy.Proofs.Discovery.Statements
import AccessPolicy.Proofs.Document.Kept
import AccessPolicy.Proofs.Document.Located
import AccessPolicy.Proofs.Document.Read
import AccessPolicy.Proofs.Document.Sorted
import AccessPolicy.Proofs.Document.Stable
import AccessPolicy.Proofs.Document.Xml
import AccessPolicy.Proofs.Element.Canonical
import AccessPolicy.Proofs.Element.Sorted
import AccessPolicy.Proofs.Element.Xml
import AccessPolicy.Proofs.Glob.Balanced
import AccessPolicy.Proofs.Glob.Braces
import AccessPolicy.Proofs.Glob.Covers
import AccessPolicy.Proofs.Glob.Formed
import AccessPolicy.Proofs.Glob.Fragment
import AccessPolicy.Proofs.Glob.Language
import AccessPolicy.Proofs.Glob.Separator
import AccessPolicy.Proofs.Glob.Split
import AccessPolicy.Proofs.Glob.Translation
import AccessPolicy.Proofs.Graph.Allowed
import AccessPolicy.Proofs.Graph.Build
import AccessPolicy.Proofs.Graph.Canonical
import AccessPolicy.Proofs.Graph.Connect
import AccessPolicy.Proofs.Graph.Decide
import AccessPolicy.Proofs.Graph.Exact
import AccessPolicy.Proofs.Graph.Indexed
import AccessPolicy.Proofs.Graph.Lookup
import AccessPolicy.Proofs.Graph.Reattached
import AccessPolicy.Proofs.Graph.Resolve
import AccessPolicy.Proofs.Graph.RuleOrder
import AccessPolicy.Proofs.Graph.Session
import AccessPolicy.Proofs.Graph.Shape
import AccessPolicy.Proofs.Graph.Stopped
import AccessPolicy.Proofs.Graph.Tally
import AccessPolicy.Proofs.Path.Accepted
import AccessPolicy.Proofs.Path.Chains
import AccessPolicy.Proofs.Path.Comparisons
import AccessPolicy.Proofs.Path.DocumentOrder
import AccessPolicy.Proofs.Path.Nodes
import AccessPolicy.Proofs.Path.Spelled
import AccessPolicy.Proofs.Path.Ways
import AccessPolicy.Proofs.Path.Written
import AccessPolicy.Proofs.Pattern.Anchored
import AccessPolicy.Proofs.Pattern.Cached
import AccessPolicy.Proofs.Pattern.History
import AccessPolicy.Proofs.Pattern.Itself
import AccessPolicy.Proofs.Pattern.Literal
import AccessPolicy.Proofs.Pattern.Meaning
import AccessPolicy.Proofs.Pattern.Retained
import AccessPolicy.Proofs.Pattern.Separator
import AccessPolicy.Proofs.Profile.Governs
import AccessPolicy.Proofs.Profile.Keeps
import AccessPolicy.Proofs.Profile.Merged
import AccessPolicy.Proofs.Profile.Ordered
import AccessPolicy.Proofs.Profile.Places
import AccessPolicy.Proofs.Profile.Reattached
import AccessPolicy.Proofs.Profile.Remainder
import AccessPolicy.Proofs.Profile.Shuffled
import AccessPolicy.Proofs.Profile.Stable
import AccessPolicy.Proofs.Profile.United
import AccessPolicy.Proofs.Profile.Walk
import AccessPolicy.Proofs.Profile.Written
import AccessPolicy.Proofs.Regex.Alone
import AccessPolicy.Proofs.Regex.Anchored
import AccessPolicy.Proofs.Regex.Bracket
import AccessPolicy.Proofs.Regex.Escapes
import AccessPolicy.Proofs.Regex.Language
import AccessPolicy.Proofs.Regex.Matches
import AccessPolicy.Proofs.Regex.Meet
import AccessPolicy.Proofs.Regex.OpenSet
import AccessPolicy.Proofs.Regex.Search
import AccessPolicy.Proofs.Regex.Written
import AccessPolicy.Proofs.Rule.Read
import AccessPolicy.Proofs.Store.Changes
import AccessPolicy.Proofs.Store.Filter
import AccessPolicy.Proofs.Store.FilterMerged
import AccessPolicy.Proofs.Store.Query
import AccessPolicy.Proofs.Store.Remainder
import AccessPolicy.Proofs.Text.Trimmed
import AccessPolicy.Regex.Basic
import AccessPolicy.Regex.CharSet
import AccessPolicy.Regex.Reader
import AccessPolicy.Regex.Search
import AccessPolicy.Regex.Token
import AccessPolicy.Rule.Basic
import AccessPolicy.Rule.Element
import AccessPolicy.Store.Basic
import AccessPolicy.Text.Blank
import AccessPolicy.Text.Category
import AccessPolicy.Text.Category.Table
import AccessPolicy.Vocabulary
