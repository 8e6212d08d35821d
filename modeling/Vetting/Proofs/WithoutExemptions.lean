import Vetting.Proofs.MoreRecords
import Vetting.Proofs.PassingVet
import Mathlib.Data.List.Forall2

/-! Exemptions that a mode does not admit. They leave vertices behind in the audit graphs which
nothing leads on from, so that a vet goes as it does over a store that never had them. -/

namespace Vetting

/-- Nothing comes of elements that are left out of a list where nothing came of them before. -/
theorem flatMap_filter_eq {α β : Type} {l : List α} {p : α → Bool} {f g : α → List β}
    (hkept : ∀ a, p a = true → f a = g a) (hleft : ∀ a, p a = false → g a = []) :
    (l.filter p).flatMap f = l.flatMap g := by
  induction l with
  | nil => rfl
  | cons a as ih =>
    rw [List.flatMap_cons, ← ih]
    cases ha : p a with
    | true => rw [List.filter_cons_of_pos ha, List.flatMap_cons, hkept a ha]
    | false =>
      rw [List.filter_cons_of_neg (Bool.eq_false_iff.1 ha), hleft a ha, List.nil_append]

/-- Whether a mode admits what another one does apart from the exemptions of a kind. -/
def ExemptionMode.Excludes (m : ExemptionMode) (p : Exemption → Bool) (n : ExemptionMode) : Prop :=
  ∀ r, m.admits r = (n.admits r && !r.exemption?.any p)

theorem ExemptionMode.deny_excludes (n : ExemptionMode) :
    deny.Excludes (fun _ => true) n := by
  intro r
  cases r with
  | exemption e => simp [admits, AuditRecord.exemption?]
  | _ => cases n <;> rfl

theorem ExemptionMode.confirmedOnly_excludes :
    confirmedOnly.Excludes Exemption.unconfirmed allow := by
  intro r
  cases r with
  | exemption e => simp [admits, AuditRecord.exemption?]
  | _ => rfl

theorem ExemptionMode.deny_excludes_self (p : Exemption → Bool) : deny.Excludes p deny := by
  intro r
  cases r with
  | exemption e => rfl
  | _ => rfl

namespace Propagator

variable {p q : Propagator} {g : DependencyGraph} {v : PackageId} {required : NameSet}
  {edges : List Dependency} {sent : List Transmission} {vs : List PackageId}

/-- Whether two propagators go by the same policies and, for one parent, the same records. -/
structure AlikeAt (p q : Propagator) (v : PackageId) : Prop where
  model_eq : q.model = p.model
  policies_eq : q.policies = p.policies
  isSome_eq : q.evidence.isSome = p.evidence.isSome
  override_eq : ∀ criterion dependency,
    q.override? v criterion dependency = p.override? v criterion dependency

theorem AlikeAt.sendOver_eq (h : p.AlikeAt q v) :
    q.sendOver g v required edges = p.sendOver g v required edges :=
  sendOver_congr h.model_eq h.policies_eq h.isSome_eq fun e _ _ _ c _ =>
    h.override_eq c e.child.package

theorem sendAll_congr (h : ∀ v ∈ vs, p.AlikeAt q v) :
    q.sendAll g sent vs = p.sendAll g sent vs := by
  induction vs generalizing sent with
  | nil => rfl
  | cons v vs ih =>
    have hv : p.AlikeAt q v := h v (List.mem_cons_self ..)
    rw [sendAll, sendAll, hv.sendOver_eq]
    congr 1
    funext more
    apply ih
    exact fun w hw => h w (List.mem_cons_of_mem _ hw)

theorem propagate_congr (h : ∀ v ∈ g.order, p.AlikeAt q v) : q.propagate g = p.propagate g := by
  rw [propagate, propagate]
  cases horder : g.topological with
  | error fault => rfl
  | ok order =>
    obtain ⟨rfl, _⟩ := DependencyGraph.topological_eq_ok horder
    rw [ok_bind, ok_bind, sendAll_congr h]

end Propagator

namespace AuditStore

variable {model : CriteriaModel} {store : AuditStore model} {m n : ExemptionMode}
  {p : Exemption → Bool} {r : AuditRecord} {package criterion : String} {more : List Version}
  {id : PackageId}

/-- The store as it is without the exemptions of a kind. -/
def withoutExemptions (store : AuditStore model) (p : Exemption → Bool) : AuditStore model :=
  ofRecords model (store.accepted.filter fun r => !r.exemption?.any p)

theorem accepted_withoutExemptions : (store.withoutExemptions p).accepted =
    store.accepted.filter fun r => !r.exemption?.any p := by
  rw [withoutExemptions, accepted_ofRecords, List.filter_eq_self]
  intro r hr
  have hmem : r ∈ store.accepted := (List.mem_filter.1 hr).1
  rw [store.valid r hmem]
  rfl

theorem recordsFor_withoutExemptions : (store.withoutExemptions p).recordsFor package =
    (store.recordsFor package).filter fun r => !r.exemption?.any p := by
  rw [recordsFor, accepted_withoutExemptions, recordsFor, List.filter_filter, List.filter_filter]
  simp only [Bool.and_comm]

theorem violationsFor_withoutExemptions :
    (store.withoutExemptions p).violationsFor package = store.violationsFor package := by
  rw [violationsFor, recordsFor_withoutExemptions, List.filterMap_filter, violationsFor]
  apply List.filterMap_congr
  intro r _
  cases r with
  | exemption e => simp [AuditRecord.violation?]
  | _ => rfl

/-- Under different precedence, the versions of a store without some exemptions and those of the
whole store are the versions of the whole store. -/
theorem map_known_withoutExemptions [SetOrder]
    (hapart : Release.Apart ((AuditGraph.known store package more).map Version.toRelease)) :
    (AuditGraph.known (store.withoutExemptions p) package
        (AuditGraph.known store package more)).map Version.toRelease =
      (AuditGraph.known store package more).map Version.toRelease := by
  symm
  apply hapart.eq_of_mem_iff AuditGraph.nodup_known AuditGraph.nodup_known
    AuditGraph.pairwise_known AuditGraph.pairwise_known
  intro v
  constructor
  · exact fun hv => AuditGraph.mem_map_known.2 (.inr hv)
  · intro hv
    rcases AuditGraph.mem_map_known.1 hv with ⟨r, hr, hversion⟩ | hold
    · rw [recordsFor_withoutExemptions] at hr
      exact AuditGraph.mem_map_known.2 (.inl ⟨r, (List.mem_filter.1 hr).1, hversion⟩)
    · exact hold

/-- Among the same versions, an exemption that is left out adds no edge that a search may take. -/
theorem edgesFor_withoutExemptions [SetOrder] (h : m.Excludes p n)
    (hapart : Release.Apart ((AuditGraph.known store package more).map Version.toRelease)) :
    (AuditGraph.build (store.withoutExemptions p) package
        (AuditGraph.known store package more)).edgesFor model n criterion =
      (AuditGraph.build store package more).edgesFor model m criterion := by
  have hedges : (AuditGraph.build (store.withoutExemptions p) package
      (AuditGraph.known store package more)).edges =
        ((store.recordsFor package).filter fun r => !r.exemption?.any p).flatMap
          (AuditGraph.edgesOf (AuditGraph.known store package more)) := by
    rw [← recordsFor_withoutExemptions]
    apply List.flatMap_congr
    intro r _
    exact AuditGraph.edgesOf_congr (map_known_withoutExemptions hapart) r
  have hwhole : (AuditGraph.build store package more).edges = (store.recordsFor package).flatMap
      (AuditGraph.edgesOf (AuditGraph.known store package more)) := rfl
  have hlabel : ∀ r, ∀ e ∈ AuditGraph.edgesOf (AuditGraph.known store package more) r,
      e.label = r := fun _ _ he => (AuditGraph.mem_edgesOf he).1
  rw [AuditGraph.edgesFor, AuditGraph.edgesFor, hedges, hwhole, List.filter_flatMap,
    List.filter_flatMap]
  apply flatMap_filter_eq
  · intro r hkept
    apply List.filter_congr
    intro e he
    rw [hlabel r e he, h r, hkept, Bool.and_true]
  · intro r hleft
    apply List.filter_eq_nil_iff.2
    intro e he
    simp [hlabel r e he, h r, hleft]

/-- A criterion resolves as if the exemptions that the mode excludes were not there, path and
all. -/
theorem resolve_withoutExemptions [SetOrder] (h : m.Excludes p n)
    (hapart : Release.Apart
      ((AuditGraph.known store id.package [id.version]).map Version.toRelease)) :
    (store.withoutExemptions p).resolve n id criterion = store.resolve m id criterion := by
  have hknown := map_known_withoutExemptions (p := p) hapart
  have hgrown : (store.withoutExemptions p).resolveIn n (AuditGraph.build
      (store.withoutExemptions p) id.package
        (AuditGraph.known store id.package [id.version])) id.version.toRelease criterion =
          (store.withoutExemptions p).resolve n id criterion := by
    apply resolveIn_build (hknown.symm ▸ hapart) _ mem_known_self
    intro v hv
    rw [hknown]
    rcases AuditGraph.mem_map_known.1 hv with ⟨r, hr, hv⟩ | hv
    · rw [recordsFor_withoutExemptions] at hr
      exact AuditGraph.mem_map_known.2 (.inl ⟨r, (List.mem_filter.1 hr).1, hv⟩)
    · exact AuditGraph.mem_map_known.2 (.inr hv)
  have hsearch : (AuditGraph.build (store.withoutExemptions p) id.package
      (AuditGraph.known store id.package [id.version])).searchFor model n criterion =
        (AuditGraph.build store id.package [id.version]).searchFor model m criterion :=
    congrArg (fun edges => Graph.search edges none) (edgesFor_withoutExemptions h hapart)
  have hblocking : (store.withoutExemptions p).blocking id.package id.version.toRelease criterion =
      store.blocking id.package id.version.toRelease criterion := by
    rw [blocking, violationsFor_withoutExemptions, blocking]
  have hpackage : (AuditGraph.build (store.withoutExemptions p) id.package
      (AuditGraph.known store id.package [id.version])).package = id.package := rfl
  rw [← hgrown, resolveIn, hpackage, hblocking, hsearch]
  rfl

variable {g : DependencyGraph} {policies : PolicyTable}

/-- The versions that a vet of a graph comes across. -/
def keysWith (store : AuditStore model) (g : DependencyGraph) : List PackageKey :=
  (store.accepted.flatMap fun r => r.versions.map fun v => ⟨r.package, v.toRelease⟩) ++
    g.members.map Member.key

/-- Whether no two different versions of a package that a vet comes across have the same
precedence. -/
def TellsApart (store : AuditStore model) (g : DependencyGraph) : Prop :=
  ∀ a ∈ store.keysWith g, ∀ b ∈ store.keysWith g, a.package = b.package →
    Release.compare a.release b.release = .eq → a = b

instance : Decidable (store.TellsApart g) := inferInstanceAs (Decidable (∀ a ∈ _, ∀ b ∈ _, _))

theorem TellsApart.apart [SetOrder] (h : store.TellsApart g)
    (hid : id.key ∈ g.members.map Member.key) :
    Release.Apart ((AuditGraph.known store id.package [id.version]).map Version.toRelease) := by
  have hkeys : ∀ v ∈ (AuditGraph.known store id.package [id.version]).map Version.toRelease,
      (⟨id.package, v⟩ : PackageKey) ∈ store.keysWith g := by
    intro v hv
    apply List.mem_append.2
    rcases AuditGraph.mem_map_known.1 hv with ⟨r, hr, hversion⟩ | hself
    · obtain ⟨haccepted, hpackage⟩ := mem_recordsFor.1 hr
      obtain ⟨u, hu, rfl⟩ := List.mem_map.1 hversion
      rw [← hpackage]
      exact .inl (List.mem_flatMap.2 ⟨r, haccepted, List.mem_map_of_mem hu⟩)
    · obtain rfl := List.mem_singleton.1 hself
      exact .inr hid
  intro a ha b hb heq
  exact congrArg PackageKey.release (h _ (hkeys a ha) _ (hkeys b hb) rfl heq)

theorem satisfied_withoutExemptions [SetOrder] (h : m.Excludes p n)
    (hapart : Release.Apart
      ((AuditGraph.known store id.package [id.version]).map Version.toRelease)) :
    (store.withoutExemptions p).satisfied n id = store.satisfied m id := by
  ext c
  rw [mem_satisfied_iff_isSatisfied_resolve, mem_satisfied_iff_isSatisfied_resolve,
    resolve_withoutExemptions h hapart]

theorem propagate_withoutExemptions [SetOrder] (h : m.Excludes p n) (hg : store.TellsApart g) :
    ((store.withoutExemptions p).propagator n policies).propagate g =
      (store.propagator m policies).propagate g := by
  apply Propagator.propagate_congr
  intro v hv
  have hmember : v.key ∈ g.members.map Member.key :=
    g.mem_members_of_mem_order (List.mem_map_of_mem hv)
  refine ⟨rfl, rfl, rfl, fun criterion dependency => ?_⟩
  have hresolve : (store.withoutExemptions p).resolve n v criterion = store.resolve m v criterion :=
    resolve_withoutExemptions h (hg.apart hmember)
  exact congrArg (fun r => Propagator.asked? r.path dependency) hresolve

end AuditStore

/-- Whether two verdicts find the same required, satisfied and unmet, and the same status. What
they give as reasons may differ. -/
structure Verdict.SameStanding (v w : Verdict) : Prop where
  id_eq : w.id = v.id
  required_eq : w.required = v.required
  satisfied_eq : w.satisfied = v.satisfied
  unmet_eq : w.unmet = v.unmet
  status_eq : w.status = v.status

namespace AuditStore

variable {model : CriteriaModel} {store other : AuditStore model} {m n : ExemptionMode}
  {p : Exemption → Bool} {id : PackageId} {g : DependencyGraph} {policies : PolicyTable}
  {required : NameSet}

theorem sameStanding_judge [SetOrder] (hsatisfied : other.satisfied n id = store.satisfied m id)
    (hdeny : other.satisfied .deny id = store.satisfied .deny id)
    (hresolve : ∀ c, other.resolve n id c = store.resolve m id c) :
    (store.judge m id required).SameStanding (other.judge n id required) := by
  have hclassify : other.classify n id required = store.classify m id required := by
    simp only [classify, hdeny, hresolve]
  have hunmet : (other.judge n id required).unmet = (store.judge m id required).unmet :=
    congrArg (required \ ·) hsatisfied
  refine ⟨rfl, rfl, hsatisfied, hunmet, ?_⟩
  simp only [judge, hsatisfied, hclassify, List.isEmpty_map]

/-- Whether a vet under a mode and a vet of another store under another one both give a report, in
which every third-party package has the same standing. -/
def VetsAs [SetOrder] (store : AuditStore model) (m : ExemptionMode) (other : AuditStore model)
    (n : ExemptionMode) (g : DependencyGraph) (policies : PolicyTable) : Prop :=
  ∃ report report', (store.vetLogged m g policies).outcome = .ok report ∧
    (other.vetLogged n g policies).outcome = .ok report' ∧
      report.verdicts.map Verdict.id = g.thirdParty ∧
        List.Forall₂ Verdict.SameStanding report.verdicts report'.verdicts

theorem vetsAs_withoutExemptions [SetOrder] (h : m.Excludes p n) (hacyclic : g.Acyclic)
    (hcheck : policies.check model = .ok ()) (hg : store.TellsApart g) :
    store.VetsAs m (store.withoutExemptions p) n g policies := by
  have hlawful : (store.propagator m policies).Lawful := lawful_propagator hcheck
  obtain ⟨requirements, hrequirements⟩ := Propagator.exists_propagate hlawful hacyclic
  have hsame : ((store.withoutExemptions p).propagator n policies).propagate g = .ok requirements :=
    (propagate_withoutExemptions h hg).trans hrequirements
  refine ⟨store.report m g requirements, (store.withoutExemptions p).report n g requirements,
    ?_, ?_, ?_, ?_⟩
  · rw [outcome_vetLogged]
    exact vet_of_propagate hcheck hrequirements
  · rw [outcome_vetLogged]
    exact vet_of_propagate hcheck hsame
  · rw [report, List.map_map]
    exact List.map_id _
  · apply List.forall₂_map_left_iff.2
    apply List.forall₂_map_right_iff.2
    apply List.forall₂_same.2
    intro id hid
    have hmember : id.key ∈ g.members.map Member.key :=
      (DependencyGraph.mem_thirdParty_key.1 (List.mem_map_of_mem hid)).1
    have hapart := hg.apart hmember
    exact sameStanding_judge (satisfied_withoutExemptions h hapart)
      (satisfied_withoutExemptions (ExemptionMode.deny_excludes_self p) hapart)
      fun _ => resolve_withoutExemptions h hapart

/-- Under a mode that does not admit some exemptions, a vet goes as it does where they were never
granted. -/
theorem vet_withoutExemptions [SetOrder] (hacyclic : g.Acyclic)
    (hcheck : policies.check model = .ok ()) (hg : store.TellsApart g) :
    store.VetsAs .deny (store.withoutExemptions fun _ => true) .allow g policies ∧
      store.VetsAs .confirmedOnly (store.withoutExemptions Exemption.unconfirmed) .allow g
        policies :=
  ⟨vetsAs_withoutExemptions (ExemptionMode.deny_excludes .allow) hacyclic hcheck hg,
    vetsAs_withoutExemptions ExemptionMode.confirmedOnly_excludes hacyclic hcheck hg⟩

/-- The middle package may be exempted or trusted for its publisher, and its base is exempted
until someone has looked at it. -/
def workbenchDoubts : AuditStore .builtin :=
  let first : Version := { major := 0, minor := 9, patch := 0 }
  let second : Version := { major := 1, minor := 0, patch := 0 }
  .ofRecords .builtin [
    .exemption { package := "middle", version := first, criteria := .single safeToDeploy },
    .delta { package := "middle", start := first, target := second, criteria := .single safeToDeploy
             dependencyCriteria := .ofList [("base", .single safeToRun)] },
    .grant { package := "middle", versions := ⟨">=0.9.0", [⟨.atLeast, first.toRelease⟩]⟩
             criteria := .single safeToRun, publisher := "someone" },
    .exemption { package := "base", version := second, criteria := .single safeToRun
                 unconfirmed := true }]

theorem vet_withoutExemptions_workbenchDoubts :
    workbench.Acyclic ∧ ({} : PolicyTable).check .builtin = .ok () ∧
      workbenchDoubts.TellsApart workbench ∧
      workbenchDoubts.VetsAs .deny (workbenchDoubts.withoutExemptions fun _ => true) .allow
        workbench {} ∧
      workbenchDoubts.VetsAs .confirmedOnly
        (workbenchDoubts.withoutExemptions Exemption.unconfirmed) .allow workbench {} := by
  have hcheck : ({} : PolicyTable).check .builtin = .ok () :=
    PolicyTable.check_eq_ok_iff.2 (by decide +kernel)
  have hg : workbenchDoubts.TellsApart workbench := by decide +kernel
  exact ⟨acyclic_workbench, hcheck, hg, vet_withoutExemptions acyclic_workbench hcheck hg⟩

end AuditStore

end Vetting
