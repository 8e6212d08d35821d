import Vetting.Proofs.WithoutBuilds
import Vetting.Proofs.CoherentReport

/-! Build metadata never influences a verdict. What is done with dependency graphs and what is
required over them commutes with taking builds away, and with it the whole vet. -/

namespace Vetting

def PackageNode.bare (n : PackageNode) : PackageNode := { n with id := n.id.bare }

def Member.bare (m : Member) : Member := ⟨m.name.bare, m.node.bare⟩

@[simp] theorem Member.key_bare (m : Member) : m.bare.key = m.key := rfl

def Dependency.bare (e : Dependency) : Dependency :=
  { e with parent := e.parent.bare, child := e.child.bare }

namespace DependencyGraph

theorem eq_of_members_of_edges {g g' : DependencyGraph} (hmembers : g.members = g'.members)
    (hedges : g.edges = g'.edges) : g = g' := by
  cases g
  cases hmembers
  cases hedges
  rfl

theorem map_key_bare (ms : List Member) : (ms.map Member.bare).map Member.key = ms.map Member.key :=
  List.map_map

variable (g : DependencyGraph)

/-- The graph of the same packages and edges without build metadata. -/
def bare : DependencyGraph where
  members := g.members.map Member.bare
  edges := g.edges.map Dependency.bare
  keys_nodup := (map_key_bare g.members).symm ▸ g.keys_nodup
  node_key := fun m hm => by
    obtain ⟨n, hn, rfl⟩ := List.mem_map.1 hm
    exact g.node_key n hn
  edges_distinct := List.pairwise_map.2 g.edges_distinct
  edges_closed := fun e he => by
    obtain ⟨d, hd, rfl⟩ := List.mem_map.1 he
    rw [map_key_bare]
    exact g.edges_closed d hd

theorem put_bare (n : PackageNode) (ms : List Member) :
    put n.bare (ms.map Member.bare) = (put n ms).map Member.bare := by
  induction ms with
  | nil => rfl
  | cons m ms ih =>
    rw [List.map_cons, put, put, ih]
    split
    · next h => rw [if_pos (show m.key = n.id.key from h)]; rfl
    · next h => rw [if_neg (show ¬m.key = n.id.key from h)]; rfl

theorem addPackage_bare (n : PackageNode) : g.bare.addPackage n.bare = (g.addPackage n).bare :=
  eq_of_members_of_edges (put_bare n g.members) rfl

theorem find?_bare (k : PackageKey) : g.bare.find? k = (g.find? k).map PackageNode.bare := by
  rw [find?, bare, List.find?_map, Option.map_map, find?, Option.map_map]
  rfl

@[simp] theorem isFirstParty_bare (k : PackageKey) : g.bare.isFirstParty k = g.isFirstParty k := by
  rw [isFirstParty, find?_bare, isFirstParty]
  cases g.find? k <;> rfl

theorem dependencies_bare (k : PackageKey) :
    g.bare.dependencies k = (g.dependencies k).map Dependency.bare := List.filter_map

theorem sorted_bare : g.bare.sorted = g.sorted.map Member.bare :=
  (map_sortBy Member.bare (fun a b => a.name.precedes b.name) g.members).symm

theorem nodes_bare : g.bare.nodes = g.nodes.map PackageNode.bare := by
  rw [nodes, sorted_bare, nodes, List.map_map, List.map_map]
  rfl

theorem firstParty_bare : g.bare.firstParty = g.firstParty.map PackageNode.bare := by
  rw [firstParty, nodes_bare, List.filter_map]
  rfl

theorem thirdParty_bare : g.bare.thirdParty = g.thirdParty.map PackageId.bare := by
  rw [thirdParty, nodes_bare, List.filter_map, List.map_map, thirdParty, List.map_map]
  rfl

theorem packages_bare : g.bare.packages = g.packages := by
  rw [packages, bare, List.map_map]
  rfl

end DependencyGraph

variable (text : String → String)

/-- A fault, what it names being bare. -/
def Fault.bare : Fault → Fault
  | dependencyCycle ids => dependencyCycle (ids.map PackageId.bare)
  | unknownPackage id => unknownPackage id.bare
  | record r f => record (r.bare text) f
  | f => f

/-- Something that is put into a dependency graph. -/
inductive Insertion where
  | package (node : PackageNode)
  | dependency (edge : Dependency)

def Insertion.bare : Insertion → Insertion
  | package node => package node.bare
  | dependency edge => dependency edge.bare

namespace DependencyGraph

/-- Put something into a graph, which stays as it is when that fails. -/
def insert (g : DependencyGraph) : Insertion → Option Fault × DependencyGraph
  | .package node => (none, g.addPackage node)
  | .dependency edge =>
    match g.addDependency edge with
    | .ok g => (none, g)
    | .error f => (some f, g)

/-- Put some things into a graph one after the other, and tell of each how it failed. -/
def insertAll (g : DependencyGraph) : List Insertion → List (Option Fault) × DependencyGraph
  | [] => ([], g)
  | i :: rest =>
    let (fault, g) := g.insert i
    let (faults, g) := g.insertAll rest
    (fault :: faults, g)

variable (g : DependencyGraph)

theorem addDependency_bare (e : Dependency) : g.bare.addDependency e.bare =
    ((g.addDependency e).mapError (Fault.bare text)).map DependencyGraph.bare := by
  have hkeys : g.bare.members.map Member.key = g.members.map Member.key := map_key_bare g.members
  have hany : (g.bare.edges.any fun d => d.agrees e.bare) = g.edges.any fun d => d.agrees e :=
    List.any_map
  simp only [addDependency, hkeys, hany]
  split
  · next hp =>
    rw [dif_pos (show e.parent.key ∈ g.members.map Member.key from hp)]
    split
    · next hc =>
      rw [dif_pos (show e.child.key ∈ g.members.map Member.key from hc)]
      split
      · rfl
      · have hedges : g.edges.map Dependency.bare ++ [e.bare] =
            (g.edges ++ [e]).map Dependency.bare := by
          rw [List.map_append, List.map_singleton]
        exact congrArg Except.ok (eq_of_members_of_edges rfl hedges)
    · next hc =>
      rw [dif_neg (show e.child.key ∉ g.members.map Member.key from hc)]
      rfl
  · next hp =>
    rw [dif_neg (show e.parent.key ∉ g.members.map Member.key from hp)]
    rfl

theorem insert_bare (i : Insertion) : g.bare.insert i.bare =
    ((g.insert i).1.map (Fault.bare text), (g.insert i).2.bare) := by
  cases i with
  | package node => exact congrArg (Prod.mk none) (addPackage_bare g node)
  | dependency edge =>
    simp only [Insertion.bare, insert, addDependency_bare text]
    cases g.addDependency edge <;> rfl

theorem insertAll_bare (steps : List Insertion) : g.bare.insertAll (steps.map Insertion.bare) =
    ((g.insertAll steps).1.map (Option.map (Fault.bare text)), (g.insertAll steps).2.bare) := by
  induction steps generalizing g with
  | nil => rfl
  | cons i rest ih =>
    simp only [List.map_cons, insertAll]
    rw [insert_bare text, ih]

/-! The order of a graph, and its cycles. -/

theorem freed_bare (mine rest : List Dependency) :
    freed (mine.map Dependency.bare) (rest.map Dependency.bare) =
      (freed mine rest).map PackageId.bare := by
  have hchildren : (mine.map Dependency.bare).reverse.map Dependency.child =
      (mine.reverse.map Dependency.child).map PackageId.bare := by
    rw [← List.map_reverse, List.map_map, List.map_map]
    rfl
  rw [freed, hchildren, distinctOn_map, ← List.map_reverse, List.filter_map, freed]
  simp only [Function.comp_def, List.any_map]
  rfl

theorem take_bare (edges : List Dependency) (queue : List PackageId) :
    take (edges.map Dependency.bare) (queue.map PackageId.bare) =
      (take edges queue).map PackageId.bare := by
  fun_induction take edges queue with
  | case1 edges => rw [List.map_nil, take]
  | case2 edges v queue mine rest ih =>
    have hmine : leaving (edges.map Dependency.bare) v.bare.key = mine.map Dependency.bare :=
      List.filter_map
    have hrest : staying (edges.map Dependency.bare) v.bare.key = rest.map Dependency.bare :=
      List.filter_map
    rw [List.map_cons, take, hmine, hrest, freed_bare, PackageId.sort_bare, ← List.map_append, ih,
      List.map_cons]

theorem order_bare : g.bare.order = g.order.map PackageId.bare := by
  have hsources : g.bare.sources = g.sources.map PackageId.bare := by
    have hnames : g.bare.members.map Member.name =
        (g.members.map Member.name).map PackageId.bare := by
      rw [bare, List.map_map, List.map_map]
      rfl
    have hdependents : ∀ k, (g.bare.dependents k).isEmpty = (g.dependents k).isEmpty := by
      intro k
      rw [dependents, bare, List.filter_map, List.isEmpty_map]
      rfl
    rw [sources, hnames, List.filter_map, PackageId.sort_bare, sources]
    simp only [hdependents, Function.comp_def, PackageId.key_bare]
  rw [order, hsources, order]
  exact take_bare g.edges g.sources

end DependencyGraph

namespace Graph

variable {α β κ : Type} [DecidableEq κ]

theorem closing_map (f : α → β) (key : β → κ) (path : List α) (v : α) :
    closing key (path.map f) (f v) = (closing (fun a => key (f a)) path v).map f := by
  rw [closing, ← List.map_reverse, List.dropWhile_map, closing, List.map_append]
  rfl

/-- A walk over images of vertices meets the images of the cycles that it meets over these. -/
theorem cyclesFrom_map (f : α → β) (key : β → κ) (next : κ → List α) (white : List κ)
    (path : List α) (todo : List (List α)) :
    cyclesFrom key (fun k => (next k).map f) white (path.map f) (todo.map (List.map f)) =
      (cyclesFrom (fun a => key (f a)) next white path todo).map (List.map f) := by
  have hany : ∀ (path : List α) (v : α), ((path.map f).any fun u => key u = key (f v)) =
      path.any fun u => key (f u) = key (f v) := fun _ _ => List.any_map
  fun_induction cyclesFrom (fun a => key (f a)) next white path todo with
  | case1 => rw [List.map_nil, cyclesFrom]
  | case2 white path todo ih =>
    rw [List.map_cons, List.map_nil, cyclesFrom, ← List.map_tail, ih]
  | case3 white path v vs todo hopen ih =>
    rw [List.map_cons, List.map_cons, cyclesFrom, hany, if_pos hopen, closing_map]
    exact congrArg _ ih
  | case4 white path v vs todo hopen hwhite ih =>
    rw [List.map_cons, List.map_cons, cyclesFrom, hany, if_neg hopen, if_pos hwhite]
    exact ih
  | case5 white path v vs todo hopen hwhite ih =>
    rw [List.map_cons, List.map_cons, cyclesFrom, hany, if_neg hopen, if_neg hwhite]
    exact ih

end Graph

theorem DependencyGraph.topological_bare (g : DependencyGraph) : g.bare.topological =
    (g.topological.mapError (Fault.bare text)).map (List.map PackageId.bare) := by
  have hcycles : g.bare.cycles = g.cycles.map (List.map PackageId.bare) := by
    have hnext : (fun k => (g.bare.dependencies k).map Dependency.child) =
        fun k => ((g.dependencies k).map Dependency.child).map PackageId.bare := by
      funext k
      rw [dependencies_bare, List.map_map, List.map_map]
      rfl
    have hnames : g.bare.sorted.map Member.name =
        (g.sorted.map Member.name).map PackageId.bare := by
      rw [sorted_bare, List.map_map, List.map_map]
      rfl
    have hkeys : ((g.sorted.map Member.name).map PackageId.bare).map PackageId.key =
        (g.sorted.map Member.name).map PackageId.key := List.map_map
    rw [cycles, hnext, hnames, Graph.cycles, hkeys]
    exact Graph.cyclesFrom_map PackageId.bare PackageId.key _ _ [] [_]
  have hlength : g.bare.members.length = g.members.length := List.length_map ..
  rw [topological, order_bare, List.length_map, hlength, hcycles, topological]
  split
  · rfl
  · cases g.cycles <;> rfl

/-! Requirements. -/

def Transmission.bare (t : Transmission) : Transmission := { t with parent := t.parent.bare }

def Requirements.bare (r : Requirements) : Requirements :=
  ⟨r.order.map PackageId.bare, r.sent.map Transmission.bare⟩

theorem Requirements.sumFor_bare (sent : List Transmission) (k : PackageKey) :
    sumFor (sent.map Transmission.bare) k = sumFor sent k := by
  rw [sumFor, List.filter_map, List.map_map, sumFor]
  rfl

theorem Propagator.asked?_bare (records : List AuditRecord) (dependency : String) :
    asked? (records.map (AuditRecord.bare text)) dependency = asked? records dependency := by
  rw [asked?, List.filterMap_map, asked?]
  simp only [Function.comp_def, AuditRecord.dependencyCriteria_bare]

namespace AuditStore

variable {model : CriteriaModel} (store : AuditStore model) (mode : ExemptionMode)
  (policies : PolicyTable) (g : DependencyGraph)

theorem transmitted_bare [SetOrder] (parent child : PackageId) (kind : DependencyKind)
    (required : NameSet) :
    ((store.bare text).propagator mode policies).transmitted g.bare parent.bare child.bare kind
      required = (store.propagator mode policies).transmitted g parent child kind required := by
  have hoverride : ∀ c d, ((store.bare text).propagator mode policies).override? parent.bare c d =
      (store.propagator mode policies).override? parent c d := by
    intro c d
    have hpath : ((store.bare text).resolve mode parent.bare c).path =
        (store.resolve mode parent c).path.map (AuditRecord.bare text) := by
      rw [resolve_bare, Resolution.path_bare]
    exact (congrArg (Propagator.asked? · d) hpath).trans (Propagator.asked?_bare text _ d)
  have howed : ((store.bare text).propagator mode policies).owed g.bare parent.bare child.bare kind
      required = (store.propagator mode policies).owed g parent child kind required := by
    simp only [Propagator.owed, Propagator.passedOn, hoverride, DependencyGraph.isFirstParty_bare,
      PackageId.key_bare]
    rfl
  rw [Propagator.transmitted, howed, DependencyGraph.isFirstParty_bare]
  rfl

theorem sendOver_bare [SetOrder] (parent : PackageId) (required : NameSet)
    (edges : List Dependency) :
    ((store.bare text).propagator mode policies).sendOver g.bare parent.bare required
      (edges.map Dependency.bare) =
        ((store.propagator mode policies).sendOver g parent required edges).map
          (List.map Transmission.bare) := by
  induction edges with
  | nil => rfl
  | cons e es ih =>
    have htransmitted := transmitted_bare text store mode policies g parent e.child e.kind required
    have hfirst : g.bare.isFirstParty e.bare.child.key = g.isFirstParty e.child.key :=
      g.isFirstParty_bare e.child.key
    rw [List.map_cons, Propagator.sendOver, Propagator.sendOver, ih, hfirst]
    split
    · rfl
    · simp only [Dependency.bare, htransmitted]
      cases (store.propagator mode policies).transmitted g parent e.child e.kind required with
      | error => rfl
      | ok criteria =>
        cases (store.propagator mode policies).sendOver g parent required es with
        | error => rfl
        | ok rest =>
          simp only [Except.map, ok_bind]
          split <;> rfl

theorem sendAll_bare [SetOrder] (sent : List Transmission) (vs : List PackageId) :
    ((store.bare text).propagator mode policies).sendAll g.bare (sent.map Transmission.bare)
      (vs.map PackageId.bare) = ((store.propagator mode policies).sendAll g sent vs).map
        (List.map Transmission.bare) := by
  induction vs generalizing sent with
  | nil => rfl
  | cons v vs ih =>
    rw [List.map_cons, Propagator.sendAll, Propagator.sendAll, PackageId.key_bare,
      Requirements.sumFor_bare, DependencyGraph.dependencies_bare, sendOver_bare]
    cases (store.propagator mode policies).sendOver g v (Requirements.sumFor sent v.key)
        (g.dependencies v.key) with
    | error => rfl
    | ok more =>
      simp only [Except.map, ok_bind, ← List.map_append]
      exact ih (sent ++ more)

theorem propagate_bare [SetOrder] : ((store.bare text).propagator mode policies).propagate g.bare =
    (((store.propagator mode policies).propagate g).mapError (Fault.bare text)).map
      Requirements.bare := by
  rw [Propagator.propagate, DependencyGraph.topological_bare text, Propagator.propagate]
  cases g.topological with
  | error f => rfl
  | ok order =>
    have hsend := sendAll_bare text store mode policies g [] order
    simp only [List.map_nil] at hsend
    simp only [Except.mapError, Except.map, ok_bind, hsend]
    cases (store.propagator mode policies).sendAll g [] order <;> rfl

end AuditStore

/-! Reports. -/

/-- A reason for a failure, the violations that it names being bare. -/
def FailureReason.bare : FailureReason → FailureReason
  | violation vs => violation (vs.map (Violation.bare text))
  | exemptionExcluded => exemptionExcluded
  | noAuditPath => noAuditPath

def Failure.bare (f : Failure) : Failure := { f with reason := f.reason.bare text }

def Verdict.bare (v : Verdict) : Verdict :=
  { v with id := v.id.bare, failures := v.failures.map (Failure.bare text) }

def Conflict.bare (c : Conflict) : Conflict :=
  ⟨c.violation.bare text, c.record.bare text, c.version.bare⟩

/-- A report, all versions in it being bare. -/
def Report.bare (r : Report) : Report where
  verdicts := r.verdicts.map (Verdict.bare text)
  firstParty := r.firstParty.map PackageId.bare
  conflicts := r.conflicts.map (Conflict.bare text)
  rejected := r.rejected.map (RejectedRecord.bare text)
  mode := r.mode

theorem Verdict.violations_isEmpty_bare (v : Verdict) :
    (v.bare text).violations.isEmpty = v.violations.isEmpty := by
  have hreason : ∀ f : Failure,
      (f.bare text).reason.violations = [] ↔ f.reason.violations = [] := by
    intro f
    obtain ⟨c, reason⟩ := f
    cases reason <;> simp [Failure.bare, FailureReason.bare, FailureReason.violations]
  rw [Bool.eq_iff_iff, List.isEmpty_iff, List.isEmpty_iff, violations_eq_nil_iff,
    violations_eq_nil_iff]
  simp only [bare, List.forall_mem_map, hreason]

theorem Report.conclusion_bare (r : Report) : (r.bare text).conclusion = r.conclusion := by
  have hfailing : (r.bare text).failing = r.failing.map (Verdict.bare text) := by
    rw [failing, bare, List.filter_map, failing]
    simp only [Function.comp_def, Verdict.passed, Verdict.violations_isEmpty_bare]
    rfl
  have hany : ((r.bare text).failing.any fun v => !v.violations.isEmpty) =
      r.failing.any fun v => !v.violations.isEmpty := by
    rw [hfailing, List.any_map]
    simp only [Function.comp_def, Verdict.violations_isEmpty_bare]
  rw [conclusion, hany, hfailing, List.isEmpty_map, conclusion]
  simp only [bare, List.isEmpty_map]

namespace AuditStore

variable {model : CriteriaModel} (store : AuditStore model) (mode : ExemptionMode)
  (policies : PolicyTable) (g : DependencyGraph)

theorem judge_bare [SetOrder] (id : PackageId) (required : NameSet) :
    (store.bare text).judge mode id.bare required = (store.judge mode id required).bare text := by
  have hexplain : ∀ c, (store.bare text).explain mode id.bare c =
      (store.explain mode id c).bare text := by
    intro c
    simp only [explain, resolve_bare, satisfied_bare]
    cases store.resolve mode id c with
    | vetoed vs => rfl
    | _ =>
      simp only [Resolution.bare]
      split <;> rfl
  have hwaiver : ∀ path,
      isBareExemption (path.map (AuditRecord.bare text)) = isBareExemption path := by
    intro path
    rcases path with _ | ⟨r, _ | ⟨_, _⟩⟩
    · rfl
    · exact AuditRecord.isExemption_bare text r
    · rfl
  have hclassify : (store.bare text).classify mode id.bare required =
      store.classify mode id required := by
    simp only [classify, satisfied_bare, resolve_bare, Resolution.path_bare, hwaiver]
  simp only [judge, satisfied_bare, hexplain, hclassify, Verdict.bare, List.map_map,
    List.isEmpty_map]
  rfl

theorem conflictsIn_bare (packages : NameSet) : (store.bare text).conflictsIn packages =
    (store.conflictsIn packages).map (Conflict.bare text) := by
  have hof : ∀ r, (store.bare text).conflictsOf (r.bare text) =
      (store.conflictsOf r).map (Conflict.bare text) := by
    intro r
    rw [conflictsOf, AuditRecord.target?_bare, conflictsOf]
    cases r.target? with
    | none => rfl
    | some v =>
      simp only [Option.map_some, AuditRecord.package_bare, AuditRecord.criteria_bare,
        violationsFor_bare, List.filter_map, List.map_map]
      rfl
  simp only [conflictsIn, recordsFor_bare, List.flatMap_map, List.map_flatMap, hof]

/-- Taking builds away before a vet comes to the same as taking them away after it. -/
theorem vet_bare [SetOrder] : (store.bare text).vet mode g.bare policies =
    ((store.vet mode g policies).mapError (Fault.bare text)).map (Report.bare text) := by
  have hreport : ∀ requirements, (store.bare text).report mode g.bare requirements.bare =
      (store.report mode g requirements).bare text := by
    intro requirements
    have hverdicts : g.bare.thirdParty.map (fun id => (store.bare text).judge mode id
        (requirements.bare.of id.key)) = (g.thirdParty.map fun id =>
          store.judge mode id (requirements.of id.key)).map (Verdict.bare text) := by
      rw [DependencyGraph.thirdParty_bare, List.map_map, List.map_map]
      apply List.map_congr_left
      intro id _
      have hrequired : requirements.bare.of id.key = requirements.of id.key :=
        Requirements.sumFor_bare requirements.sent id.key
      exact (congrArg _ hrequired).trans (judge_bare text store mode id _)
    simp only [report, Report.bare, hverdicts, DependencyGraph.firstParty_bare,
      DependencyGraph.packages_bare, conflictsIn_bare, List.map_map]
    rfl
  rw [vet, propagate_bare text, vet]
  cases policies.check model with
  | error f => rfl
  | ok =>
    cases (store.propagator mode policies).propagate g with
    | error f => rfl
    | ok requirements => exact congrArg Except.ok (hreport requirements)

end AuditStore

/-- Whether two verdicts find the same of a package, whatever builds are named. -/
structure Verdict.SameButBuilds (v w : Verdict) : Prop where
  id_eq : w.id.bare = v.id.bare
  required_eq : w.required = v.required
  satisfied_eq : w.satisfied = v.satisfied
  unmet_eq : w.unmet = v.unmet
  failures_eq : w.failures.map (Failure.bare text) = v.failures.map (Failure.bare text)
  status_eq : w.status = v.status

/-- Whether two vets fail alike, or conclude the same from verdicts that correspond in order. -/
def SameButBuilds : Except Fault Report → Except Fault Report → Prop
  | .error f, .error f' => f'.bare text = f.bare text
  | .ok r, .ok s => s.conclusion = r.conclusion ∧
      List.Forall₂ (Verdict.SameButBuilds text) r.verdicts s.verdicts
  | _, _ => False

variable {text}

theorem Verdict.sameButBuilds {v w : Verdict} (h : w.bare text = v.bare text) :
    v.SameButBuilds text w := by
  have hrequired := congrArg Verdict.required h
  have hsatisfied := congrArg Verdict.satisfied h
  have hunmet := congrArg Verdict.unmet h
  have hstatus := congrArg Verdict.status h
  exact ⟨congrArg Verdict.id h, hrequired, hsatisfied, hunmet, congrArg Verdict.failures h, hstatus⟩

theorem sameButBuilds_of_bare_eq {x y : Except Fault Report}
    (h : (y.mapError (Fault.bare text)).map (Report.bare text) =
      (x.mapError (Fault.bare text)).map (Report.bare text)) : SameButBuilds text x y := by
  match x, y with
  | .error f, .error f' => exact Except.error.inj h
  | .error f, .ok s => cases h
  | .ok r, .error f' => cases h
  | .ok r, .ok s =>
    have hreport : s.bare text = r.bare text := Except.ok.inj h
    have hverdicts : r.verdicts.map (Verdict.bare text) = s.verdicts.map (Verdict.bare text) :=
      (congrArg Report.verdicts hreport).symm
    rw [← List.forall₂_eq_eq_eq, List.forall₂_map_left_iff, List.forall₂_map_right_iff] at hverdicts
    refine ⟨?_, hverdicts.imp fun v w h => Verdict.sameButBuilds h.symm⟩
    rw [← Report.conclusion_bare text s, hreport, Report.conclusion_bare]

/-- Records and insertions into a graph that differ in nothing but builds are accepted alike and
vetted alike. Where `text` is the identity, ranges are written alike, too, and named as they are
written; where it is constant, they are only to have the same bounds. -/
theorem vet_sameButBuilds [SetOrder] (model : CriteriaModel) (mode : ExemptionMode)
    (policies : PolicyTable) {records records' : List AuditRecord} {steps steps' : List Insertion}
    (hrecords : records'.map (AuditRecord.bare text) = records.map (AuditRecord.bare text))
    (hsteps : steps'.map Insertion.bare = steps.map Insertion.bare) :
    let filled := DependencyGraph.insertAll ∅ steps
    let filled' := DependencyGraph.insertAll ∅ steps'
    filled'.1.map (Option.map (Fault.bare text)) = filled.1.map (Option.map (Fault.bare text)) ∧
      SameButBuilds text
        ((AuditStore.ofRecords model records).vetLogged mode filled.2 policies).outcome
        ((AuditStore.ofRecords model records').vetLogged mode filled'.2 policies).outcome := by
  intro filled filled'
  have hfilled := DependencyGraph.insertAll_bare text ∅ steps
  have hfilled' := DependencyGraph.insertAll_bare text ∅ steps'
  rw [hsteps, hfilled, Prod.mk.injEq] at hfilled'
  obtain ⟨hfaults, hgraph⟩ := hfilled'
  refine ⟨hfaults.symm, ?_⟩
  have hvet := AuditStore.vet_bare text (.ofRecords model records) mode policies filled.2
  have hvet' := AuditStore.vet_bare text (.ofRecords model records') mode policies filled'.2
  rw [← AuditStore.ofRecords_bare, hrecords, ← hgraph, AuditStore.ofRecords_bare, hvet] at hvet'
  rw [AuditStore.outcome_vetLogged, AuditStore.outcome_vetLogged]
  exact sameButBuilds_of_bare_eq hvet'.symm

/-- Records that name builds: a delta to what is used, and a grant of what one release is. -/
def recordsOfBuild (build : String) : List AuditRecord :=
  let v : Version := { major := 1, minor := 0, patch := 0, build }
  [.delta { package := "base", start := { v with minor := 1 }, target := v
            criteria := .single safeToDeploy },
    .full { package := "base", version := { v with minor := 1 }, criteria := .single safeToRun },
    .grant { package := "middle", versions := ⟨"=1.0.0+" ++ build, [⟨.equal, v.toRelease⟩]⟩
             criteria := .single safeToDeploy, publisher := "ada" }]

def stepsOfBuild (build : String) : List Insertion :=
  let v : Version := { major := 1, minor := 0, patch := 0, build }
  [.package { id := ⟨"app", v⟩, firstParty := true }, .package { id := ⟨"middle", v⟩ },
    .dependency ⟨⟨"middle", v⟩, ⟨"base", v⟩, .normal⟩, .package { id := ⟨"base", v⟩ },
    .dependency ⟨⟨"app", v⟩, ⟨"middle", v⟩, .normal⟩, .dependency ⟨⟨"app", v⟩, ⟨"base", v⟩, .dev⟩,
    .package { id := ⟨"base", { v with build := "rebuilt" }⟩ }]

theorem vet_sameButBuilds_linux :
    (recordsOfBuild "linux").map (AuditRecord.bare fun _ => "") =
        (recordsOfBuild "").map (AuditRecord.bare fun _ => "") ∧
      (stepsOfBuild "linux").map Insertion.bare = (stepsOfBuild "").map Insertion.bare ∧
        ∃ report report', ((AuditStore.ofRecords .builtin (recordsOfBuild "")).vetLogged .allow
            (DependencyGraph.insertAll ∅ (stepsOfBuild "")).2 {}).outcome = .ok report ∧
          ((AuditStore.ofRecords .builtin (recordsOfBuild "linux")).vetLogged .allow
            (DependencyGraph.insertAll ∅ (stepsOfBuild "linux")).2 {}).outcome = .ok report' ∧
          report.conclusion = .success ∧ report'.conclusion = report.conclusion ∧
            List.Forall₂ (Verdict.SameButBuilds fun _ => "") report.verdicts
              report'.verdicts := by
  have hrecords : (recordsOfBuild "linux").map (AuditRecord.bare fun _ => "") =
      (recordsOfBuild "").map (AuditRecord.bare fun _ => "") := rfl
  have hsteps : (stepsOfBuild "linux").map Insertion.bare =
      (stepsOfBuild "").map Insertion.bare := rfl
  obtain ⟨report, hvet, hpass⟩ : ∃ report, ((AuditStore.ofRecords .builtin
      (recordsOfBuild "")).vetLogged .allow (DependencyGraph.insertAll ∅
        (stepsOfBuild "")).2 {}).outcome = .ok report ∧ report.conclusion = .success :=
    AuditStore.exists_report_of_conclusion (by decide +kernel)
  obtain ⟨report', hvet', _⟩ : ∃ report, ((AuditStore.ofRecords .builtin
      (recordsOfBuild "linux")).vetLogged .allow (DependencyGraph.insertAll ∅
        (stepsOfBuild "linux")).2 {}).outcome = .ok report ∧ report.conclusion = .success :=
    AuditStore.exists_report_of_conclusion (by decide +kernel)
  obtain ⟨_, hsame⟩ := vet_sameButBuilds .builtin .allow {} hrecords hsteps
  rw [hvet, hvet'] at hsame
  exact ⟨hrecords, hsteps, report, report', hvet, hvet', hpass, hsame⟩

end Vetting
