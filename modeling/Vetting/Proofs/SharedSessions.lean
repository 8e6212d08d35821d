import Vetting.Proofs.PassingVet
import Vetting.Proofs.SessionMemory

/-! Vets by way of sessions. Each question of a vet goes to a session that may have been asked
anything before; where releases have different precedence, none of that shows in the report. -/

namespace Vetting

/-- When a vet asks a question: as requirements go through a package, or as it is judged. -/
inductive Stage where
  | passing
  | judging

/-- What the sessions of a vet were asked before each of its questions. A question is about one
criterion, or about all that a release satisfies. -/
abbrev Past := Stage → ExemptionMode → PackageKey → Option String → List Session.Call

namespace Session

variable {model : CriteriaModel} {store : AuditStore model} {s : Session store} {a b : PackageId}
  {criterion : String} {r : AuditRecord}

theorem resolve_congr_key [SetOrder] (h : a.key = b.key) :
    (s.resolve a criterion).1 = (s.resolve b criterion).1 := by
  rw [resolve_eq_inOrder, resolve_eq_inOrder]
  exact @AuditStore.resolve_congr_key _ _ _ a b s.order h criterion

/-- The records of a path count, whatever a session came to know before. -/
theorem counts_of_mem_path [SetOrder] (hr : r ∈ (s.resolve a criterion).1.path) :
    store.Counts s.mode a.package criterion r := by
  rw [resolve_eq_inOrder] at hr
  exact @AuditStore.counts_of_mem_path s.order _ _ _ _ _ _ hr

/-- The records that sessions find, each for one criterion of a package, are lawful evidence. -/
theorem lawful_finding [SetOrder] {policies : PolicyTable} (hcheck : policies.check model = .ok ())
    (asked : PackageKey → String → Session store) :
    (⟨model, policies, some fun id c => ((asked id.key c).resolve id c).1.path⟩ :
      Propagator).Lawful := by
  refine ⟨hcheck, ?_, ?_⟩
  · intro parent criterion dependency names hnames c hc
    obtain ⟨r, hr, wanted, hwanted, hcs⟩ := Propagator.mem_of_asked? hnames hc
    have haccepted : r ∈ store.accepted := (counts_of_mem_path hr).accepted
    exact AuditRecord.known_of_fault?_eq_none (store.valid r haccepted) hwanted hcs
  · intro a b hab criterion dependency
    have hresolve : ((asked a.key criterion).resolve a criterion).1 =
        ((asked b.key criterion).resolve b criterion).1 := by
      rw [hab]
      exact resolve_congr_key hab
    exact congrArg (fun r => Propagator.asked? r.path dependency) hresolve

end Session

namespace AuditStore

variable {model : CriteriaModel} (store : AuditStore model) (past : Past) (stage : Stage)
  (mode : ExemptionMode)

/-- Whether releases of one package have different precedence, as far as its records name them or
sessions were asked about them. -/
def TellsApartAfter (key : PackageKey) : Prop :=
  ∀ stage mode question, Release.Apart (key.release ::
    Session.releasesMet store (past stage mode key question) key.package)

def sessionAfter [SetOrder] (key : PackageKey) (question : Option String) : Session store :=
  (Session.start store mode).after (past stage mode key question)

def resolveAfter [SetOrder] (id : PackageId) (criterion : String) : Resolution :=
  ((store.sessionAfter past stage mode id.key (some criterion)).resolve id criterion).1

def satisfiedAfter [SetOrder] (id : PackageId) : NameSet :=
  ((store.sessionAfter past .judging mode id.key none).satisfied id).1

def explainAfter [SetOrder] (id : PackageId) (criterion : String) : FailureReason :=
  match store.resolveAfter past .judging mode id criterion with
  | .vetoed vs => .violation vs
  | _ =>
    if mode ≠ .allow ∧ criterion ∈ store.satisfiedAfter past .allow id then .exemptionExcluded
    else .noAuditPath

def classifyAfter [SetOrder] (id : PackageId) (required : NameSet) : VettingStatus :=
  if required.within (store.satisfiedAfter past .deny id) then .fully
  else if required.toList.all fun c =>
      isBareExemption (store.resolveAfter past .judging mode id c).path then
    .withExemptions
  else .partially

def judgeAfter [SetOrder] (id : PackageId) (required : NameSet) : Verdict :=
  let satisfied := store.satisfiedAfter past mode id
  let failures := (required \ satisfied).toList.map fun c => ⟨c, store.explainAfter past mode id c⟩
  { id, required, satisfied, failures,
    status := if failures.isEmpty then store.classifyAfter past mode id required else .unvetted }

def reportAfter [SetOrder] (g : DependencyGraph) (requirements : Requirements) : Report :=
  { store.report mode g requirements with
    verdicts := g.thirdParty.map fun id => store.judgeAfter past mode id (requirements.of id.key) }

def propagatorAfter [SetOrder] (policies : PolicyTable) : Propagator where
  model := model
  policies := policies
  evidence := some fun id criterion => (store.resolveAfter past .passing mode id criterion).path

/-- Vet a dependency graph by asking sessions with a past. -/
def vetAfter [SetOrder] (g : DependencyGraph) (policies : PolicyTable) : Except Fault Report := do
  liftCriteria (policies.check model)
  let requirements ← (store.propagatorAfter past mode policies).propagate g
  pure (store.reportAfter past mode g requirements)

variable {store past stage mode} {g : DependencyGraph} {policies : PolicyTable} {id : PackageId}
  {criterion : String} {required : NameSet}

theorem satisfiedAfter_eq [SetOrder] :
    store.satisfiedAfter past mode id = store.satisfied mode id :=
  (Session.recalls_after _).satisfied_eq

theorem resolveAfter_eq [SetOrder] (h : store.TellsApartAfter past id.key) :
    store.resolveAfter past stage mode id criterion = store.resolve mode id criterion := by
  let calls := past stage mode id.key (some criterion)
  let call := Session.Call.resolve id.package (some id.version) criterion
  have hself : id.version ∈ call.versionsOf id.package := by simp [call, Session.Call.versionsOf]
  have hrecalls : Session.Recalls mode (calls ++ [call])
      (store.sessionAfter past stage mode id.key (some criterion)) :=
    (Session.recalls_after calls).later call
  refine hrecalls.resolve_eq (Session.mem_versionsOf_last hself) ?_
  apply (h stage mode (some criterion)).subset
  intro r hr
  rcases Session.mem_releasesMet.1 hr with hnamed | hasked
  · exact List.mem_cons_of_mem _ (Session.mem_releasesMet.2 (.inl hnamed))
  · rw [List.flatMap_append, List.map_append, List.mem_append] at hasked
    rcases hasked with hasked | hasked
    · exact List.mem_cons_of_mem _ (Session.mem_releasesMet.2 (.inr hasked))
    · obtain rfl : r = id.version.toRelease := by
        simpa [call, Session.Call.versionsOf] using hasked
      exact List.mem_cons_self ..

/-- Past questions show in a verdict only by the paths of the answers. -/
theorem judgeAfter_eq [SetOrder]
    (h : ∀ c, store.resolveAfter past .judging mode id c = store.resolve mode id c) :
    store.judgeAfter past mode id required = store.judge mode id required := by
  have hexplain : store.explainAfter past mode id = store.explain mode id := by
    funext c
    cases hanswer : store.resolve mode id c <;>
      simp only [explainAfter, explain, h, satisfiedAfter_eq, hanswer]
  have hclassify : store.classifyAfter past mode id required = store.classify mode id required := by
    simp only [classifyAfter, classify, h, satisfiedAfter_eq]
  simp only [judgeAfter, judge, hexplain, hclassify, satisfiedAfter_eq]

theorem lawful_propagatorAfter [SetOrder] (hcheck : policies.check model = .ok ()) :
    (store.propagatorAfter past mode policies).Lawful :=
  Session.lawful_finding hcheck fun key c => store.sessionAfter past .passing mode key (some c)

/-- Sessions without a past vet as the store does. -/
theorem vetAfter_nothing [SetOrder] :
    store.vetAfter (fun _ _ _ _ => []) mode g policies = store.vet mode g policies := by
  have hresolve : ∀ stage id c, store.resolveAfter (fun _ _ _ _ => []) stage mode id c =
      store.resolve mode id c := fun _ _ c => Session.resolve_start c
  have hpropagator : store.propagatorAfter (fun _ _ _ _ => []) mode policies =
      store.propagator mode policies := by
    simp only [propagatorAfter, hresolve]
    rfl
  have hreport : ∀ r, store.reportAfter (fun _ _ _ _ => []) mode g r = store.report mode g r := by
    intro r
    simp only [reportAfter, judgeAfter_eq fun c => hresolve .judging _ c]
    rfl
  simp only [vetAfter, vet, hpropagator, hreport]

end AuditStore

end Vetting
