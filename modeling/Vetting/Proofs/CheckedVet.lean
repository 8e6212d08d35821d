import Vetting.Proofs.BatchSuggestion
import Vetting.Proofs.CheckedResolution

/-! A vet with every look-up made: of criteria, of versions in audit graphs, of packages in the
order of a graph. Once the policies are checked, none of them finds nothing. -/

namespace Vetting

def lookUpPackage (ids : List PackageId) (id : PackageId) : Except Fault Unit :=
  if id.key ∈ ids.map PackageId.key then .ok () else .error (.unknownPackage id)

/-- Order a graph as `topological` does, looking up where each edge leads. -/
def DependencyGraph.topologicalChecked (g : DependencyGraph) : Except Fault (List PackageId) := do
  g.edges.forM fun e => lookUpPackage (g.members.map Member.name) e.child
  g.topological

theorem DependencyGraph.topologicalChecked_eq {g : DependencyGraph} :
    g.topologicalChecked = g.topological := by
  have hedges : g.edges.forM (fun e => lookUpPackage (g.members.map Member.name) e.child) =
      .ok () := by
    apply forM_eq_ok_iff.2
    intro e he
    have hchild := (g.edges_closed e he).2
    refine if_pos ?_
    rwa [List.map_map]
  rw [topologicalChecked, hedges]
  rfl

namespace AuditStore

section

variable {model : CriteriaModel} (store : AuditStore model) (mode : ExemptionMode)
  (policies : PolicyTable) (g : DependencyGraph)

/-- What the records behind a criterion ask of a dependency, once the criterion is resolved. -/
def overrideChecked [SetOrder] (parent : PackageId) (criterion dependency : String) :
    Except Fault (Option NameSet) := do
  let r ← store.resolveChecked mode parent criterion
  pure (Propagator.asked? r.path dependency)

def passedOnChecked [SetOrder] (parent : PackageId) (dependency : String) (kind : DependencyKind)
    (required : NameSet) : Except Fault NameSet := do
  let overrides ← required.toList.mapM fun c => do
    let names ← store.overrideChecked mode parent c dependency
    pure (c, names)
  let kept := NameSet.ofList ((overrides.filter fun o => o.2.isNone).map Prod.fst)
  let passed ← if kind.isRunTier then model.downgradeChecked kept else pure kept
  pure (.unions (overrides.filterMap Prod.snd) ∪ passed)

def owedChecked [SetOrder] (parent child : PackageId) (kind : DependencyKind) (required : NameSet) :
    Except Fault NameSet :=
  if g.isFirstParty parent.key then
    .ok (policies.requiredOf parent.package child.package kind)
  else store.passedOnChecked mode parent child.package kind required

/-- Pass on over some edges, looking up among the packages in order where each of them leads. -/
def sendOverChecked [SetOrder] (order : List PackageId) (parent : PackageId) (required : NameSet) :
    List Dependency → Except Fault (List Transmission)
  | [] => .ok []
  | e :: es => do
    if g.isFirstParty e.child.key then sendOverChecked order parent required es
    else
      let criteria ← store.owedChecked mode policies g parent e.child e.kind required
      lookUpPackage order e.child
      let rest ← sendOverChecked order parent required es
      pure (if criteria.isEmpty then rest else ⟨parent, e.child.key, criteria⟩ :: rest)

def sendAllChecked [SetOrder] (order : List PackageId) (sent : List Transmission) :
    List PackageId → Except Fault (List Transmission)
  | [] => .ok sent
  | v :: vs => do
    lookUpPackage order v
    let more ← store.sendOverChecked mode policies g order v (Requirements.sumFor sent v.key)
      (g.dependencies v.key)
    sendAllChecked order (sent ++ more) vs

def propagateChecked [SetOrder] : Except Fault Requirements := do
  let order ← g.topologicalChecked
  let sent ← store.sendAllChecked mode policies g order [] order
  pure { order, sent }

/-- Ask whether all exemptions together would satisfy a criterion, which is looked up for that. -/
def excuseChecked [SetOrder] (id : PackageId) (criterion : String) : Except Fault FailureReason :=
  if mode = .allow then .ok .noAuditPath
  else do
    liftCriteria (model.check criterion)
    let lenient ← store.satisfiedChecked .allow id
    pure (if criterion ∈ lenient then .exemptionExcluded else .noAuditPath)

def explainChecked [SetOrder] (id : PackageId) (criterion : String) : Except Fault FailureReason
    := do
  match ← store.resolveChecked mode id criterion with
  | .vetoed vs => pure (.violation vs)
  | _ => store.excuseChecked mode id criterion

def classifyChecked [SetOrder] (id : PackageId) (required : NameSet) : Except Fault VettingStatus
    := do
  let audited ← store.satisfiedChecked .deny id
  if required.within audited then pure .fully
  else
    let resolutions ← required.toList.mapM (store.resolveChecked mode id)
    pure (if resolutions.all fun r => isBareExemption r.path then .withExemptions else .partially)

def judgeChecked [SetOrder] (id : PackageId) (required : NameSet) : Except Fault Verdict := do
  let satisfied ← store.satisfiedChecked mode id
  let failures ← (required \ satisfied).toList.mapM fun c => do
    let reason ← store.explainChecked mode id c
    pure (⟨c, reason⟩ : Failure)
  let status ← if failures.isEmpty then store.classifyChecked mode id required
    else pure .unvetted
  pure { id, required, satisfied, failures, status }

def conflictsOfChecked (r : AuditRecord) : Except Fault (List Conflict) :=
  match r.target? with
  | none => .ok []
  | some v => do
    let claimed ← model.expandChecked r.criteria
    pure (((store.violationsFor r.package).filter fun w =>
      claimed.meets w.criteria && w.versions.contains v.toRelease).map fun w => ⟨w, r, v⟩)

def conflictsInChecked (packages : NameSet) : Except Fault (List Conflict) := do
  let conflicts ← (packages.toList.flatMap store.recordsFor).mapM store.conflictsOfChecked
  pure conflicts.flatten

/-- Vet as `vet` does, with every look-up made: the satisfied sets come first, all together. -/
def vetChecked [SetOrder] : Except Fault Report := do
  liftCriteria (policies.check model)
  let _ ← g.thirdParty.mapM (store.satisfiedChecked mode)
  let requirements ← store.propagateChecked mode policies g
  let verdicts ← g.thirdParty.mapM fun id => store.judgeChecked mode id (requirements.of id.key)
  let conflicts ← store.conflictsInChecked g.packages
  pure { verdicts, firstParty := g.firstParty.map PackageNode.id, conflicts,
         rejected := store.rejected, mode }

end

variable {model : CriteriaModel} {store : AuditStore model} {mode : ExemptionMode}
  {policies : PolicyTable} {g : DependencyGraph} {id parent child v : PackageId}
  {dependency c : String} {kind : DependencyKind} {required : NameSet} {r : AuditRecord}
  {order vs : List PackageId} {edges : List Dependency} {sent : List Transmission}

theorem overrideChecked_eq [SetOrder] (hc : c ∈ model) :
    store.overrideChecked mode parent c dependency =
    .ok ((store.propagator mode policies).override? parent c dependency) := by
  rw [overrideChecked, resolveChecked_eq hc]
  rfl

theorem passedOnChecked_eq [SetOrder] (hknown : ∀ c ∈ required, c ∈ model) :
    store.passedOnChecked mode parent dependency kind required =
      .ok ((store.propagator mode policies).passedOn parent dependency kind required) := by
  let override : String → Option NameSet := fun c =>
    (store.propagator mode policies).override? parent c dependency
  have hoverrides : (required.toList.mapM fun c => do
      let names ← store.overrideChecked mode parent c dependency
      pure (c, names)) = .ok (required.toList.map fun c => (c, override c)) := by
    apply mapM_eq_ok_map
    intro c hc
    rw [overrideChecked_eq (hknown c hc)]
    rfl
  have hkept : NameSet.ofList (((required.toList.map fun c => (c, override c)).filter
      fun o => o.2.isNone).map Prod.fst) = required.filter fun c => (override c).isNone := by
    ext c
    simp
  have hreplaced : (required.toList.map fun c => (c, override c)).filterMap Prod.snd =
      required.toList.filterMap override := List.filterMap_map
  have hkeptKnown : ∀ c ∈ required.filter fun c => (override c).isNone, c ∈ model :=
    fun c hc => hknown c (NameSet.mem_filter.1 hc).1
  unfold passedOnChecked Propagator.passedOn
  rw [hoverrides, ok_bind, hkept, hreplaced]
  cases kind.isRunTier with
  | true =>
    rw [if_pos rfl, CriteriaModel.downgradeChecked_eq hkeptKnown]
    rfl
  | false => rfl

theorem owedChecked_eq [SetOrder] (hknown : ∀ c ∈ required, c ∈ model) :
    store.owedChecked mode policies g parent child kind required =
      .ok ((store.propagator mode policies).owed g parent child kind required) := by
  unfold owedChecked Propagator.owed
  split
  · rfl
  · exact passedOnChecked_eq hknown

theorem sendOverChecked_eq [SetOrder] (hcheck : policies.check model = .ok ())
    (hknown : ∀ c ∈ required, c ∈ model)
    (hchild : ∀ e ∈ edges, e.child.key ∈ order.map PackageId.key) :
    ∃ sent, store.sendOverChecked mode policies g order v required edges = .ok sent ∧
      (store.propagator mode policies).sendOver g v required edges = .ok sent ∧
        ∀ t ∈ sent, ∀ c ∈ t.criteria, c ∈ model := by
  induction edges with
  | nil => exact ⟨[], rfl, rfl, fun t ht => absurd ht List.not_mem_nil⟩
  | cons e es ih =>
    obtain ⟨he, hes⟩ := List.forall_mem_cons.1 hchild
    obtain ⟨rest, hchecked, hsent, hrest⟩ := ih hes
    have hlookUp : lookUpPackage order e.child = .ok () := if_pos he
    unfold sendOverChecked Propagator.sendOver
    by_cases hfirst : g.isFirstParty e.child.key = true
    · rw [if_pos hfirst, if_pos hfirst]
      exact ⟨rest, hchecked, hsent, hrest⟩
    · rw [if_neg hfirst, if_neg hfirst, Propagator.transmitted_of_known hknown, hlookUp, hchecked,
        hsent, owedChecked_eq hknown]
      refine ⟨_, rfl, rfl, ?_⟩
      have howed : ∀ c ∈ (store.propagator mode policies).owed g v e.child e.kind required,
          c ∈ model :=
        fun c hc => Propagator.known_of_mem_owed (lawful_propagator hcheck) hknown hc
      split
      · exact hrest
      · exact List.forall_mem_cons.2 ⟨howed, hrest⟩

/-- Package after package, only known criteria are sent, so no look-up of one can fail. -/
theorem sendAllChecked_eq [SetOrder] (hcheck : policies.check model = .ok ())
    (hknown : ∀ t ∈ sent, ∀ c ∈ t.criteria, c ∈ model)
    (hchild : ∀ e ∈ g.edges, e.child.key ∈ order.map PackageId.key)
    (hvs : ∀ v ∈ vs, v.key ∈ order.map PackageId.key) :
    ∃ all, store.sendAllChecked mode policies g order sent vs = .ok all ∧
      (store.propagator mode policies).sendAll g sent vs = .ok all := by
  induction vs generalizing sent with
  | nil => exact ⟨sent, rfl, rfl⟩
  | cons v vs ih =>
    obtain ⟨hv, hrest⟩ := List.forall_mem_cons.1 hvs
    have hlookUp : lookUpPackage order v = .ok () := if_pos hv
    have hrequired : ∀ c ∈ Requirements.sumFor sent v.key, c ∈ model := by
      intro c hc
      obtain ⟨t, ht, _, hct⟩ := Requirements.mem_sumFor.1 hc
      exact hknown t ht c hct
    have hchild' : ∀ e ∈ g.dependencies v.key, e.child.key ∈ order.map PackageId.key :=
      fun e he => hchild e (DependencyGraph.mem_dependencies.1 he).1
    obtain ⟨more, hchecked, hsent, hmore⟩ := sendOverChecked_eq hcheck hrequired hchild'
    obtain ⟨all, hallChecked, hall⟩ := ih (List.forall_mem_append.2 ⟨hknown, hmore⟩) hrest
    refine ⟨all, ?_, ?_⟩
    · rw [sendAllChecked, hlookUp, ok_bind, hchecked]
      exact hallChecked
    · rw [Propagator.sendAll, hsent]
      exact hall

theorem propagateChecked_eq [SetOrder] (hcheck : policies.check model = .ok ()) :
    store.propagateChecked mode policies g = (store.propagator mode policies).propagate g := by
  rw [propagateChecked, DependencyGraph.topologicalChecked_eq, Propagator.propagate]
  cases horder : g.topological with
  | error fault => rfl
  | ok order =>
    have hchild : ∀ e ∈ g.edges, e.child.key ∈ order.map PackageId.key :=
      fun e he => DependencyGraph.mem_of_topological horder _ (g.edges_closed e he).2
    have hnone : ∀ t ∈ ([] : List Transmission), ∀ c ∈ t.criteria, c ∈ model :=
      fun t ht => absurd ht List.not_mem_nil
    obtain ⟨all, hchecked, hall⟩ :
        ∃ all, store.sendAllChecked mode policies g order [] order = .ok all ∧
          (store.propagator mode policies).sendAll g [] order = .ok all :=
      sendAllChecked_eq hcheck hnone hchild fun v hv => List.mem_map_of_mem hv
    rw [ok_bind, ok_bind, hchecked, hall]
    rfl

theorem explainChecked_eq [SetOrder] (hc : c ∈ model) :
    store.explainChecked mode id c = .ok (store.explain mode id c) := by
  have hcheck : liftCriteria (model.check c) = .ok () := by
    rw [model.check_eq_ok_iff.2 hc]
    rfl
  have hunreached : store.excuseChecked mode id c =
      .ok (if mode ≠ .allow ∧ c ∈ store.satisfied .allow id then .exemptionExcluded
        else .noAuditPath) := by
    unfold excuseChecked
    by_cases hmode : mode = .allow
    · rw [if_pos hmode, if_neg fun h => h.1 hmode]
    · rw [if_neg hmode, hcheck, satisfiedChecked_eq]
      simp only [ne_eq, hmode, not_false_eq_true, true_and]
      rfl
  unfold explainChecked explain
  rw [resolveChecked_eq hc, ok_bind]
  cases store.resolve mode id c with
  | vetoed vs => rfl
  | satisfied path => exact hunreached
  | unreached => exact hunreached

theorem classifyChecked_eq [SetOrder] (hknown : ∀ c ∈ required, c ∈ model) :
    store.classifyChecked mode id required = .ok (store.classify mode id required) := by
  have hresolutions : required.toList.mapM (store.resolveChecked mode id) =
      .ok (required.toList.map (store.resolve mode id)) :=
    mapM_eq_ok_map fun c hc => resolveChecked_eq (hknown c hc)
  unfold classifyChecked classify
  rw [satisfiedChecked_eq, ok_bind, hresolutions, ok_bind, List.all_map]
  split
  · rfl
  · rfl

theorem judgeChecked_eq [SetOrder] (hknown : ∀ c ∈ required, c ∈ model) :
    store.judgeChecked mode id required = .ok (store.judge mode id required) := by
  have hfailures : ((required \ store.satisfied mode id).toList.mapM fun c => do
      let reason ← store.explainChecked mode id c
      pure (⟨c, reason⟩ : Failure)) =
        .ok (store.judge mode id required).failures := by
    apply mapM_eq_ok_map
    intro c hc
    rw [explainChecked_eq (hknown c (NameSet.mem_sdiff.1 hc).1)]
    rfl
  unfold judgeChecked
  rw [satisfiedChecked_eq, ok_bind, hfailures, ok_bind, classifyChecked_eq hknown]
  split
  · next hempty =>
    have hstatus : (store.judge mode id required).status = store.classify mode id required :=
      if_pos hempty
    rw [ok_bind, ← hstatus]
    rfl
  · next hsome =>
    have hstatus : (store.judge mode id required).status = .unvetted := if_neg hsome
    rw [pure_bind, ← hstatus]
    rfl

theorem conflictsOfChecked_eq (hr : r ∈ store.accepted) :
    store.conflictsOfChecked r = .ok (store.conflictsOf r) := by
  unfold conflictsOfChecked conflictsOf
  cases r.target? with
  | none => rfl
  | some v =>
    rw [CriteriaModel.expandChecked_eq fun c hc => known_of_mem_accepted hr hc]
    rfl

theorem conflictsInChecked_eq {packages : NameSet} :
    store.conflictsInChecked packages = .ok (store.conflictsIn packages) := by
  have hconflicts : (packages.toList.flatMap store.recordsFor).mapM store.conflictsOfChecked =
      .ok ((packages.toList.flatMap store.recordsFor).map store.conflictsOf) := by
    apply mapM_eq_ok_map
    intro r hr
    obtain ⟨p, _, hrp⟩ := List.mem_flatMap.1 hr
    exact conflictsOfChecked_eq (mem_recordsFor.1 hrp).1
  rw [conflictsInChecked, hconflicts, ok_bind, conflictsIn, ← List.flatMap_assoc]
  rfl

/-- Where a vet makes every look-up, it answers as it does without: none but the look-ups of the
policies' criteria can fail. -/
theorem vetChecked_eq [SetOrder] :
    store.vetChecked mode policies g = store.vet mode g policies := by
  unfold vetChecked vet
  cases hcheck : policies.check model with
  | error fault => rfl
  | ok =>
    have hsatisfied : g.thirdParty.mapM (store.satisfiedChecked mode) =
        .ok (g.thirdParty.map (store.satisfied mode)) :=
      mapM_eq_ok_map fun id _ => satisfiedChecked_eq
    rw [hsatisfied, propagateChecked_eq hcheck]
    cases hrequirements : (store.propagator mode policies).propagate g with
    | error fault => rfl
    | ok requirements =>
      have hknown := known_of_propagate hcheck hrequirements
      have hverdicts : (g.thirdParty.mapM fun id =>
          store.judgeChecked mode id (requirements.of id.key)) =
            .ok (store.report mode g requirements).verdicts :=
        mapM_eq_ok_map fun id hid => judgeChecked_eq (hknown id hid)
      have hlift : ∀ u : Unit, liftCriteria (Except.ok u) = .ok u := fun _ => rfl
      rw [hlift, ok_bind, ok_bind, ok_bind, hverdicts, ok_bind, conflictsInChecked_eq]
      rfl

end AuditStore

end Vetting
