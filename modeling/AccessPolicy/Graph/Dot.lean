import AccessPolicy.Graph.Basic

/-!
# Graphs as drawings

A graph is written in the language of Graphviz, one line for each node and each
edge. A node is filled with a colour for its kind; an edge has a colour for
whether it is allowed, or for its permission while that is not known.
-/

namespace AccessPolicy

/-- The colour of objects of a kind. -/
def ObjectKind.color : ObjectKind → String
  | topic | rosTopic => "#0b5394ff"
  | service | rosService => "#741b47ff"
  | action | rosAction => "#351c75ff"
  | rosParameter => "#bf9000ff"

/-- The colour of a node. -/
def Node.color : Node → String
  | subject _ => "#38761dff"
  | object kind _ => kind.color

/-- The colour of an edge that was not evaluated. -/
def Permission.color : Permission → String
  | publish | subscribe | rosPublish | rosSubscribe => "#3d85c6"
  | call | execute | rosCall | rosExecute => "#a64d79"

/-- The colour of an edge that was evaluated. -/
def Qualifier.color : Qualifier → String
  | allow => "green"
  | deny => "red"

/-- The colour of an edge. -/
def Edge.color (e : Edge) : String :=
  match e.qualifier with
  | some qualifier => qualifier.color
  | none => e.permission.color

namespace AccessGraph

/-- A character of a label. A line break is written so that the line before it
stands to the left. -/
def escapeLabel (c : Char) : List Char :=
  if c == '"' || c == '\\' then ['\\', c]
  else if c == '\n' then ['\\', 'l']
  else [c]

/-- A label between its quotes. -/
def quoteLabel (label : String) : String :=
  "\"" ++ String.ofList (label.toList.flatMap escapeLabel) ++ "\""

/-- The line of a node. -/
def dotNode (index : Nat) (node : Node) : String :=
  "    " ++ toString index ++ " [ label = " ++ quoteLabel node.name ++ " color=\"" ++
    node.color ++ "\" style=filled fontcolor=white]\n"

/-- The line of an edge. -/
def dotEdge (e : Edge) : String :=
  "    " ++ toString e.source ++ " -> " ++ toString e.target ++ " [ label = " ++
    quoteLabel e.permission.toText ++ " color=\"" ++ e.color ++ "\"]\n"

/-- The graph in the language of Graphviz. -/
def toDot (g : AccessGraph) : String :=
  "digraph \x7b\n" ++
    String.join (g.numberedNodes.map fun (index, node) => dotNode index node) ++
    String.join (g.edges.map dotEdge) ++ "\x7d\n"

end AccessGraph

end AccessPolicy
