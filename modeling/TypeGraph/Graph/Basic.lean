/-
# The dependency graph

Named definitions and the names that they mention.  A definition depends on another one of the
graph when it mentions its name; other mentioned names are unknown.  Definitions of one name are
one node of the graph.  Ids follow the order in which names first appear; dependencies and
unknown names follow the order in which they are first mentioned.
-/
import TypeGraph.Expr.References
import TypeGraph.Event

namespace TypeGraph

/-- What counts as a dependency and as a cycle. -/
structure GraphOptions where
  /-- Whether names mentioned in function bodies count. -/
  functionBodies : Bool := false
  /-- Whether a definition may mention itself without being a cycle. -/
  allowSelfReferences : Bool := false

/-- The id of a name: its place among `names`. -/
def DefId.ofName? (names : OrderedSet String) (name : String) : Option DefId :=
  (names.indexOf? name).map .ofIndex

/-- The names that a definition mentions, sorted into those of the graph and others. -/
structure Mentions where
  dependencies : OrderedSet DefId
  unknown : OrderedSet String

namespace Mentions

def empty : Mentions := ⟨.empty, .empty⟩

instance : Inhabited Mentions := ⟨empty⟩

/-- Adds a mentioned name, by its id if it is one of `names`. -/
def add (names : OrderedSet String) (m : Mentions) (name : String) : Mentions :=
  match DefId.ofName? names name with
  | some id => { m with dependencies := m.dependencies.insert id }
  | none => { m with unknown := m.unknown.insert name }

/-- All that `more` has is added to what `m` has. -/
def merge (m more : Mentions) : Mentions :=
  ⟨m.dependencies.insertAll more.dependencies.toList, m.unknown.insertAll more.unknown.toList⟩

/-- What one definition mentions. -/
def ofDefinition (names : OrderedSet String) (bodies : Bool) (d : Definition) : Mentions :=
  let cursor := RefCursor.ofNode (.definition d)
  let cursor := if bodies then cursor.withBodies else cursor
  cursor.toList.foldl (add names) empty

end Mentions

/-- Definitions by name, each with what it mentions. -/
structure DependencyGraph where
  names : OrderedSet String
  /-- What the definitions mention, in the order of `names`. -/
  mentions : Array Mentions
  options : GraphOptions

/-- The names of a list of definitions, and what each definition of the list mentions. -/
structure Survey where
  names : OrderedSet String
  collected : List (String × Mentions)

namespace Survey

/-- Looks through definitions.  All names are known before the first mention is looked up, so a
definition may depend on a later one. -/
def ofDefinitions (options : GraphOptions) (definitions : List Definition) : Survey :=
  let names := OrderedSet.ofList (definitions.map Definition.name)
  ⟨names, definitions.map fun d => (d.name, .ofDefinition names options.functionBodies d)⟩

/-- Merges what a definition mentions into the node of its name. -/
def place (names : OrderedSet String) (nodes : Array Mentions) (found : String × Mentions) :
    Array Mentions :=
  match names.indexOf? found.1 with
  | some i => nodes.modify i fun m => m.merge found.2
  | none => nodes

/-- The graph of the definitions that were looked through. -/
def graph (s : Survey) (options : GraphOptions) : DependencyGraph :=
  ⟨s.names, s.collected.foldl (place s.names) (Array.replicate s.names.size .empty), options⟩

/-- What is reported while a graph is built. -/
def events (s : Survey) : List Event :=
  .buildingGraph s.names.size :: s.collected.map fun (name, m) =>
    .collected name m.dependencies.size m.unknown.size

end Survey

namespace DependencyGraph

/-- The graph of a list of definitions. -/
def build (options : GraphOptions) (definitions : List Definition) : DependencyGraph :=
  (Survey.ofDefinitions options definitions).graph options

/-- How many definitions there are, those of one name counted once. -/
def size (g : DependencyGraph) : Nat := g.names.size

def isEmpty (g : DependencyGraph) : Bool := g.size == 0

/-- All ids, in order. -/
def ids (g : DependencyGraph) : List DefId := (List.range g.size).map .ofIndex

/-- The id of a name. -/
def find? (g : DependencyGraph) (name : String) : Option DefId := DefId.ofName? g.names name

/-- The name of an id. -/
def nameOf (g : DependencyGraph) (id : DefId) : Except Breach String :=
  match g.names.get? id.index with
  | some name => .ok name
  | none => .error (.unknownId id)

/-- What the definition of an id mentions. -/
def mentionsOf (g : DependencyGraph) (id : DefId) : Except Breach Mentions :=
  match g.mentions[id.index]? with
  | some m => .ok m
  | none => .error (.unknownId id)

/-- The definitions that a definition depends on, in order of first mention. -/
def dependencies (g : DependencyGraph) (id : DefId) : Except Breach (List DefId) :=
  return (← g.mentionsOf id).dependencies.toList

/-- The mentioned names that no definition of the graph has, in order of first mention. -/
def unknownNames (g : DependencyGraph) (id : DefId) : Except Breach (List String) :=
  return (← g.mentionsOf id).unknown.toList

/-! ## Text -/

/-- A list of names after an introduction, or nothing. -/
def listed (before : String) (names : List String) (after : String) : String :=
  match names with
  | [] => ""
  | _ :: _ => before ++ ", ".intercalate names ++ after

/-- A definition with its dependencies and unknown names, as a line. -/
def line (g : DependencyGraph) (id : DefId) : Except Breach String := do
  let name ← g.nameOf id
  let dependencies ← (← g.dependencies id).mapM g.nameOf
  let unknown ← g.unknownNames id
  return name ++ listed " -> " dependencies "" ++ listed " [unknown: " unknown "]" ++ "\n"

/-- A line per definition. -/
def text (g : DependencyGraph) : Except Breach String :=
  return String.join (← g.ids.mapM g.line)

end DependencyGraph
end TypeGraph
