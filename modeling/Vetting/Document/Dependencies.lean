import Vetting.Document.Field
import Vetting.Dependency.Graph

/-! The dependency graph file: packages, and the edges between them. -/

namespace Vetting.Document

def packageEntry (place : String) (i : Nat) (value : Json) : Read PackageNode :=
  let place := s!"{place}: packages[{i}]"
  match value with
  | .obj entry =>
    match entry.lookup "name", entry.lookup "version" with
    | some name, some value => do
      let version ← version value place
      let firstParty := (entry.lookup "first_party").getD (field entry "first-party")
      pure { id := ⟨name.asText, version⟩, firstParty := firstParty.isGiven }
    | _, _ => fail place .needsPackage
  | _ => fail place .needsPackage

/-- A part of an edge that a text has to spell. -/
def endpoint {α : Type} (place : String) (r : Except TextFault α) : Read α :=
  match r with
  | .ok a => .ok a
  | .error f => fail place (.text f)

def addEdge (place : String) (g : DependencyGraph) (i : Nat) (value : Json) :
    Read DependencyGraph :=
  let place := s!"{place}: dependencies[{i}]"
  match value with
  | .obj entry =>
    match entry.lookup "from", entry.lookup "to" with
    | some source, some target => do
      let parent ← endpoint place (PackageId.parse source.asText)
      let child ← endpoint place (PackageId.parse target.asText)
      let kind ← endpoint place
        (DependencyKind.parse ((entry.lookup "kind").getD (.str "normal")).asText)
      match g.addDependency ⟨parent, child, kind⟩ with
      | .ok g => pure g
      | .error (.unknownPackage id) => fail place (.unknownPackage id)
      | .error f => .error f
    | _, _ => fail place .needsEndpoints
  | _ => fail place .needsEndpoints

def addEdges (place : String) (g : DependencyGraph) : List (Json × Nat) → Read DependencyGraph
  | [] => .ok g
  | (value, i) :: rest => do
    let g ← addEdge place g i value
    addEdges place g rest

def dependencyGraph (file : Json.Members) (place : String) : Read DependencyGraph := do
  match (field file "packages").orElse (.arr []) with
  | .arr packages =>
    let nodes ← indexed (packageEntry place) packages
    let g := nodes.foldl DependencyGraph.addPackage ∅
    let edges ← parts ((field file "dependencies").orElse (.arr []))
    addEdges place g edges.zipIdx
  | _ => fail place (.sectionNotList "packages")

end Vetting.Document
