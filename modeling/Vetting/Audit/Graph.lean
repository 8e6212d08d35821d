import Vetting.Audit.Store
import Vetting.Graph.Search

/-! The audit graph of a package. Its vertices are releases and a root, the package
without any code; every positive record is an edge from what it presumes to what it
vouches for. Violations add no edge. -/

namespace Vetting

/-- Which exemptions may satisfy criteria. -/
inductive ExemptionMode where
  | allow
  | confirmedOnly
  | deny
deriving DecidableEq, Inhabited

namespace ExemptionMode

def word : ExemptionMode → String
  | allow => "allow"
  | confirmedOnly => "confirmed-only"
  | deny => "none"

def parse (text : String) : Except TextFault ExemptionMode :=
  match [allow, confirmedOnly, deny].find? fun m => m.word = text with
  | some m => .ok m
  | none => .error (.notChoice .exemptionMode text)

/-- The mode of a locked or a strict vet; locked wins. -/
def ofFlags (locked strict : Bool) : ExemptionMode :=
  if locked then deny else if strict then confirmedOnly else allow

def admits (mode : ExemptionMode) (r : AuditRecord) : Bool :=
  match mode, r with
  | confirmedOnly, .exemption e => !e.unconfirmed
  | deny, .exemption _ => false
  | _, _ => true

end ExemptionMode

/-- A release of a package, or none for the root. -/
abbrev AuditVertex := Option Release

/-- What a record vouches for, given what it presumes. -/
abbrev AuditEdge := Graph.Edge AuditVertex AuditRecord

/-- The versions that are known of a package and the edges between them. -/
structure AuditGraph where
  package : String
  versions : List Version
  edges : List AuditEdge
deriving Inhabited

namespace AuditGraph

def edgesOf (versions : List Version) (r : AuditRecord) : List AuditEdge :=
  match r with
  | .full a => [⟨none, some a.version.toRelease, r⟩]
  | .delta a => [⟨some a.start.toRelease, some a.target.toRelease, r⟩]
  | .exemption e => [⟨none, some e.version.toRelease, r⟩]
  | .grant g =>
    (versions.filter fun v => g.versions.contains v.toRelease).map fun v =>
      ⟨none, some v.toRelease, r⟩
  | .violation _ => []

/-- The versions that records name and some more, sorted, each as it was first met. -/
def known [SetOrder] {model : CriteriaModel} (store : AuditStore model) (package : String)
    (more : List Version) : List Version :=
  Version.sortedSet package ((store.recordsFor package).flatMap AuditRecord.versions ++ more)

/-- The audit graph of a package, with some more versions for grants to reach. -/
def build [SetOrder] {model : CriteriaModel} (store : AuditStore model) (package : String)
    (more : List Version) : AuditGraph :=
  let versions := known store package more
  { package, versions, edges := (store.recordsFor package).flatMap (edgesOf versions) }

variable (g : AuditGraph)

def has (r : Release) : Bool := g.versions.any fun v => v.toRelease = r

def vertices : List AuditVertex := none :: g.versions.map fun v => some v.toRelease

/-- The place of a vertex, the root's being zero. -/
def indexOf? (v : AuditVertex) : Option Nat := g.vertices.idxOf? v

/-- The vertex with an index; a negative index counts from the end. -/
def vertexAt? (index : Int) : Option AuditVertex :=
  if 0 ≤ index then g.vertices[index.toNat]? else g.vertices.reverse[(-1 - index).toNat]?

def edgesFrom (v : AuditVertex) : List AuditEdge := g.edges.filter fun e => e.source = v

def edgesBySource : List AuditEdge := g.vertices.flatMap g.edgesFrom

/-- The edges that share a label and pass a test. -/
def passing (labels : NameSet) (passes : AuditEdge → Bool) : List AuditEdge :=
  g.edges.filter fun e => e.label.criteria.meets labels && passes e

/-- Search from the root over the edges that share a label and pass a test. -/
def searchBy (labels : NameSet) (passes : AuditEdge → Bool) : List AuditEdge :=
  Graph.search (g.passing labels passes) none

/-- Search from the root over the edges that share a label and whose records pass a test. -/
def search (labels : NameSet) (passes : AuditRecord → Bool) : List AuditEdge :=
  g.searchBy labels fun e => passes e.label

end AuditGraph

end Vetting
