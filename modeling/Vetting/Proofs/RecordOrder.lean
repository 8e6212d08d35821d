import Vetting.Proofs.CoherentReport
import Vetting.Proofs.StricterMode
import Vetting.Proofs.SuggestedVet
import Vetting.Proofs.WithoutExemptions

/-! The order of audit records. It chooses between chains of records that are equally short, and so
what those ask of dependencies and whether an exemption is needed; nothing else depends on it. -/

namespace Vetting

namespace AuditStore

variable {model : CriteriaModel} {store store' : AuditStore model} {mode : ExemptionMode}
  {records records' : List AuditRecord} {id : PackageId} {c dependency : String}
  {links : List AuditRecord} {package : String} {packages : NameSet} {v : Release}
  {policies : PolicyTable}

/-- Whether two stores accept the same records, in whatever order. -/
def SameRecords (store store' : AuditStore model) : Prop :=
  ∀ r, r ∈ store.accepted ↔ r ∈ store'.accepted

theorem sameRecords_ofRecords (h : records.Perm records') :
    (ofRecords model records).SameRecords (ofRecords model records') := by
  intro r
  rw [accepted_ofRecords, accepted_ofRecords, List.mem_filter, List.mem_filter, h.mem_iff]

theorem SameRecords.symm (h : store.SameRecords store') : store'.SameRecords store :=
  fun r => (h r).symm

theorem SameRecords.counts (h : store.SameRecords store') {r : AuditRecord}
    (hcounts : store.Counts mode package c r) : store'.Counts mode package c r :=
  ⟨(h r).1 hcounts.accepted, hcounts.filed, hcounts.admitted, hcounts.implies⟩

theorem SameRecords.chain (h : store.SameRecords store')
    (hchain : store.Chain mode package c links v) : store'.Chain mode package c links v :=
  hchain.imp fun _ => h.counts

theorem SameRecords.isSatisfied_resolve [SetOrder] (h : store.SameRecords store') (id : PackageId) :
    (store'.resolve mode id c).isSatisfied = (store.resolve mode id c).isSatisfied := by
  rw [Bool.eq_iff_iff, isSatisfied_resolve_iff_chain, isSatisfied_resolve_iff_chain]
  refine and_congr ⟨fun hall r hr => hall r ((h r).1 hr), fun hall r hr => hall r ((h r).2 hr)⟩ ?_
  exact exists_congr fun chain => ⟨h.symm.chain, h.chain⟩

theorem SameRecords.satisfied_eq [SetOrder] (h : store.SameRecords store') (id : PackageId) :
    store'.satisfied mode id = store.satisfied mode id := by
  ext c
  rw [mem_satisfied_iff_isSatisfied_resolve, mem_satisfied_iff_isSatisfied_resolve,
    h.isSatisfied_resolve]

theorem SameRecords.vetoed_iff (h : store.SameRecords store') {key : PackageKey} :
    store'.Vetoed key c ↔ store.Vetoed key c :=
  exists_congr fun w => and_congr_left fun _ => (h (.violation w)).symm

theorem SameRecords.mem_conflictsIn (h : store.SameRecords store') {x : Conflict} :
    x ∈ store'.conflictsIn packages ↔ x ∈ store.conflictsIn packages := by
  simp only [conflictsIn, List.mem_flatMap, mem_recordsFor, mem_conflictsOf, mem_violationsFor,
    h _]

/-- Whether some records are a chain for a criterion of a release, and no chain is shorter. -/
structure ShortestChain (store : AuditStore model) (mode : ExemptionMode) (id : PackageId)
    (criterion : String) (links : List AuditRecord) : Prop where
  chain : store.Chain mode id.package criterion links id.version.toRelease
  shortest : ∀ other, store.Chain mode id.package criterion other id.version.toRelease →
    links.length ≤ other.length

theorem SameRecords.shortestChain (h : store.SameRecords store')
    (hchain : store.ShortestChain mode id c links) : store'.ShortestChain mode id c links :=
  ⟨h.chain hchain.chain, fun other hother => hchain.shortest other (h.symm.chain hother)⟩

theorem shortestChain_path [SetOrder] (h : (store.resolve mode id c).isSatisfied = true) :
    store.ShortestChain mode id c (store.resolve mode id c).path :=
  have hpath := chain_path_resolveIn mem_known_self h
  ⟨hpath.1, hpath.2⟩

/-- Whether all shortest chains for a criterion of a release ask the same of a dependency. -/
def AsksAlike (store : AuditStore model) (mode : ExemptionMode) (id : PackageId)
    (criterion dependency : String) : Prop :=
  ∀ chain other, store.ShortestChain mode id criterion chain →
    store.ShortestChain mode id criterion other →
      Propagator.asked? chain dependency = Propagator.asked? other dependency

theorem asksAlike_of_unnamed (h : ∀ r ∈ store.accepted, r.package = id.package →
    r.dependencyCriteria.get? dependency = none) : store.AsksAlike mode id c dependency := by
  have hnone : ∀ chain, store.ShortestChain mode id c chain →
      Propagator.asked? chain dependency = none := by
    intro chain hchain
    have hempty : chain.filterMap (fun r => r.dependencyCriteria.get? dependency) = [] := by
      rw [List.filterMap_eq_nil_iff]
      intro r hr
      have hcounts := hchain.chain.counts_of_mem hr
      exact h r hcounts.accepted hcounts.filed
    rw [Propagator.asked?, hempty]
  intro chain other hchain hother
  rw [hnone chain hchain, hnone other hother]

theorem SameRecords.override?_eq [SetOrder] (h : store.SameRecords store')
    (halike : store.AsksAlike mode id c dependency) :
    (store'.propagator mode policies).override? id c dependency =
      (store.propagator mode policies).override? id c dependency := by
  change Propagator.asked? (store'.resolve mode id c).path dependency =
    Propagator.asked? (store.resolve mode id c).path dependency
  by_cases hsat : (store.resolve mode id c).isSatisfied = true
  · have hsat' := (h.isSatisfied_resolve id).trans hsat
    exact halike _ _ (h.symm.shortestChain (shortestChain_path hsat')) (shortestChain_path hsat)
  · have hunsat := Bool.eq_false_iff.2 hsat
    rw [Resolution.path_eq_nil hunsat,
      Resolution.path_eq_nil ((h.isSatisfied_resolve id).trans hunsat)]

end AuditStore

namespace Propagator

variable {p q : Propagator} {g : DependencyGraph} {A : PackageKey → Prop} {r s : Requirements}
  {R S : PackageKey → NameSet} {order : List PackageId}

theorem owed_congr_required {parent child : PackageId} {kind : DependencyKind} {required : NameSet}
    (hmodel : q.model = p.model) (hpolicies : q.policies = p.policies)
    (h : g.isFirstParty parent.key = false → ∀ c ∈ required,
      q.override? parent c child.package = p.override? parent c child.package) :
    q.owed g parent child kind required = p.owed g parent child kind required := by
  ext d
  rw [owed, owed, hpolicies]
  cases hfirst : g.isFirstParty parent.key with
  | true => exact Iff.rfl
  | false =>
    simp only [Bool.false_eq_true, if_false, mem_passedOn, hmodel]
    refine exists_congr fun c => and_congr_right fun hc => ?_
    rw [h hfirst c hc]

theorem Progress.of_eq_of_owed (hp : p.Lawful) (hq : q.Lawful) (hr : p.Progress g order r.sent)
    (hs : q.Progress g order s.sent)
    (hall : ∀ k ∈ g.members.map Member.key, k ∈ order.map PackageId.key)
    (hclosed : ∀ e ∈ g.edges, A e.child.key → A e.parent.key)
    (howed : ∀ e ∈ g.edges, A e.child.key → g.isFirstParty e.child.key = false →
      q.owed g e.parent e.child e.kind (r.of e.parent.key) =
        p.owed g e.parent e.child e.kind (r.of e.parent.key))
    {done : List PackageKey} {vs : List PackageId}
    (horder : DependencyGraph.DependentsFirst g.edges done vs)
    (hdone : ∀ k ∈ done, A k → s.of k = r.of k) : ∀ v ∈ vs, A v.key → s.of v.key = r.of v.key := by
  induction vs generalizing done with
  | nil => exact fun v hv => absurd hv List.not_mem_nil
  | cons v vs ih =>
    obtain ⟨hwait, hrest⟩ := horder
    have hv : A v.key → s.of v.key = r.of v.key := by
      intro hA
      cases hfirst : g.isFirstParty v.key with
      | true =>
        rw [Requirements.of, Requirements.of, Requirements.sumFor, Requirements.sumFor,
          hr.filter_sent_firstParty hfirst, hs.filter_sent_firstParty hfirst]
      | false =>
        -- All parents are done, so that both sides owe the same over the same edges.
        ext c
        rw [hr.mem_of hp hall hfirst, hs.mem_of hq hall hfirst]
        refine exists_congr fun e => and_congr_right fun he => ?_
        obtain ⟨hedge, hchild⟩ := DependencyGraph.mem_dependents.1 he
        have hAchild : A e.child.key := hchild.symm ▸ hA
        rw [hdone _ (hwait e hedge hchild) (hclosed e hedge hAchild),
          howed e hedge hAchild (hchild.symm ▸ hfirst)]
    exact List.forall_mem_cons.2 ⟨hv, ih hrest (List.forall_mem_cons.2 ⟨hv, hdone⟩)⟩

/-- Where two propagators owe the same over the edges to some packages and to all that depend on
them, they require the same there. -/
theorem required_eq_of_owed (hp : p.Lawful) (hq : q.Lawful) (hr : p.propagate g = .ok r)
    (hs : q.propagate g = .ok s) (hclosed : ∀ e ∈ g.edges, A e.child.key → A e.parent.key)
    (howed : ∀ e ∈ g.edges, A e.child.key → g.isFirstParty e.child.key = false →
      q.owed g e.parent e.child e.kind (r.of e.parent.key) =
        p.owed g e.parent e.child e.kind (r.of e.parent.key)) :
    ∀ k ∈ g.members.map Member.key, A k → s.of k = r.of k := by
  obtain ⟨horder, hprogress⟩ := progress_of_propagate hp hr
  obtain ⟨horder', hprogress'⟩ := progress_of_propagate hq hs
  have hall := DependencyGraph.mem_of_topological horder
  have hsame : s.order = r.order := Except.ok.inj (horder'.symm.trans horder)
  intro k hk
  obtain ⟨v, hv, rfl⟩ := List.mem_map.1 (hall k hk)
  refine hprogress.of_eq_of_owed hp hq (hsame ▸ hprogress') hall hclosed howed ?_
    (fun _ h => absurd h List.not_mem_nil) v hv
  rw [(DependencyGraph.topological_eq_ok horder).1]
  exact g.dependentsFirst_order

theorem Solves.congr (h : p.Solves g S) (heq : ∀ k ∈ g.members.map Member.key, R k = S k) :
    p.Solves g R := by
  refine ⟨fun k hk hfirst => (heq k hk).trans (h.firstParty k hk hfirst), fun k hk hthird => ?_⟩
  rw [heq k hk, ← h.thirdParty k hk hthird]
  apply gathered_congr
  intro e he
  exact heq _ (g.edges_closed e (DependencyGraph.mem_dependents.1 he).1).1

/-- What propagation finds is known by the requirement equations. -/
theorem solves_iff_of_propagate (hp : p.Lawful) (hr : p.propagate g = .ok r) :
    p.Solves g R ↔ ∀ k ∈ g.members.map Member.key, R k = r.of k := by
  obtain ⟨horder, hprogress⟩ := progress_of_propagate hp hr
  have hall := DependencyGraph.mem_of_topological horder
  obtain ⟨heq, hperm⟩ := DependencyGraph.topological_eq_ok horder
  have hfirst : DependencyGraph.DependentsFirst g.edges [] r.order := heq ▸ g.dependentsFirst_order
  have hsolves : p.Solves g r.of := hprogress.solves hp hall
  refine ⟨fun hR k hk => ?_, fun heq => hsolves.congr heq⟩
  obtain ⟨v, hv, rfl⟩ := List.mem_map.1 (hall k hk)
  refine hR.eq_on hsolves hfirst (fun w hw => ?_) (fun _ h => absurd h List.not_mem_nil) v hv
  exact hperm.mem_iff.1 (List.mem_map_of_mem hw)

end Propagator

namespace AuditStore

variable {model : CriteriaModel} {store store' : AuditStore model} {mode : ExemptionMode}
  {id : PackageId} {c : String} {links : List AuditRecord}

/-- Whether both an exemption and some other record vouch for a criterion of a release on their
own. -/
def DoublyVouched (store : AuditStore model) (mode : ExemptionMode) (id : PackageId)
    (criterion : String) : Prop :=
  ∃ x y, (store.Counts mode id.package criterion x ∧ x.Vouches id.version.toRelease) ∧
    (store.Counts mode id.package criterion y ∧ y.Vouches id.version.toRelease) ∧
      x.isExemption = true ∧ y.isExemption = false

theorem Chain.exists_of_length_le_one {package : String} {v : Release}
    (h : store.Chain mode package c links v) (hlength : links.length ≤ 1) :
    ∃ r, links = [r] ∧ store.Counts mode package c r ∧ r.Vouches v := by
  cases h with
  | vouched counts vouches => exact ⟨_, rfl, counts, vouches⟩
  | led before =>
    rw [List.length_append, List.length_singleton] at hlength
    have hnil := List.length_eq_zero_iff.1 (Nat.le_zero.1 (Nat.le_of_succ_le_succ hlength))
    exact absurd hnil before.ne_nil

theorem isBareExemption_iff : isBareExemption links = true ↔
    ∃ r, links = [r] ∧ r.isExemption = true := by
  cases links with
  | nil => simp [isBareExemption]
  | cons r rs =>
    cases rs with
    | nil => simp [isBareExemption]
    | cons => simp [isBareExemption]

/-- A single exemption is all that is found in one order of the records, and something else in
another, only if another single record would do as well. -/
theorem SameRecords.doublyVouched [SetOrder] (h : store.SameRecords store')
    (hbare : isBareExemption (store.resolve mode id c).path = true)
    (hother : isBareExemption (store'.resolve mode id c).path = false) :
    store.DoublyVouched mode id c := by
  obtain ⟨x, hpath, hx⟩ := isBareExemption_iff.1 hbare
  have hsat : (store.resolve mode id c).isSatisfied = true := by
    by_contra hnot
    rw [Resolution.path_eq_nil (Bool.eq_false_iff.2 hnot)] at hpath
    cases hpath
  have hshortest := shortestChain_path hsat
  have hshortest' := shortestChain_path ((h.isSatisfied_resolve id).trans hsat)
  rw [hpath] at hshortest
  obtain ⟨y, hpath', hy⟩ := hshortest'.chain.exists_of_length_le_one
    (hshortest'.shortest [x] (h.chain hshortest.chain))
  obtain ⟨x', hx', hcounts⟩ := hshortest.chain.exists_of_length_le_one (Nat.le_refl 1)
  cases hx'
  obtain ⟨y', hy', hcounts'⟩ := (h.symm.chain hshortest'.chain).exists_of_length_le_one
    (Nat.le_of_eq (congrArg List.length hpath'))
  obtain rfl : y = y' := List.singleton_inj.1 (hpath'.symm.trans hy')
  refine ⟨x, y, hcounts, hcounts', hx, ?_⟩
  rw [hpath'] at hother
  exact hother

end AuditStore

/-- What verdicts have in common that are reached over the same records in different orders, for
the same requirements. They can differ in the paths that they found, and so in whether a package
passes with exemptions only. -/
structure Verdict.SameButForTies {model : CriteriaModel} (store : AuditStore model)
    (mode : ExemptionMode) (v w : Verdict) : Prop where
  id_eq : w.id = v.id
  required_eq : w.required = v.required
  satisfied_eq : w.satisfied = v.satisfied
  unmet_eq : w.unmet = v.unmet
  status_eq_or : w.status = v.status ∨ (v.status = .partially ∧ w.status = .withExemptions) ∨
    (v.status = .withExemptions ∧ w.status = .partially)
  status_eq : (∀ c ∈ v.required, ¬store.DoublyVouched mode v.id c) → w.status = v.status

namespace AuditStore

variable {model : CriteriaModel} {store store' : AuditStore model} {mode : ExemptionMode}
  {id : PackageId} {required : NameSet}

theorem SameRecords.exists_doublyVouched [SetOrder] (h : store.SameRecords store')
    (hbare : (required.toList.all fun c => isBareExemption (store.resolve mode id c).path) = true)
    (hother : (required.toList.all fun c =>
      isBareExemption (store'.resolve mode id c).path) = false) :
    ∃ c ∈ required, store.DoublyVouched mode id c := by
  obtain ⟨c, hc, hnot⟩ := List.all_eq_false.1 hother
  exact ⟨c, hc, h.doublyVouched (List.all_eq_true.1 hbare c hc) (Bool.eq_false_iff.2 hnot)⟩

theorem SameRecords.doublyVouched_of_same {c : String} (h : store.SameRecords store')
    (hdoubly : store.DoublyVouched mode id c) : store'.DoublyVouched mode id c := by
  obtain ⟨x, y, ⟨hx, hvx⟩, ⟨hy, hvy⟩, hkinds⟩ := hdoubly
  exact ⟨x, y, ⟨h.counts hx, hvx⟩, ⟨h.counts hy, hvy⟩, hkinds⟩

theorem SameRecords.classify_eq_or [SetOrder] (h : store.SameRecords store') :
    store'.classify mode id required = store.classify mode id required ∨
      ((∃ c ∈ required, store.DoublyVouched mode id c) ∧
        ((store.classify mode id required = .partially ∧
            store'.classify mode id required = .withExemptions) ∨
          (store.classify mode id required = .withExemptions ∧
            store'.classify mode id required = .partially))) := by
  rw [classify, classify, h.satisfied_eq]
  split
  · exact .inl rfl
  · cases hbare : required.toList.all fun c => isBareExemption (store.resolve mode id c).path with
    | true =>
      cases hbare' : required.toList.all fun c =>
          isBareExemption (store'.resolve mode id c).path with
      | true => exact .inl rfl
      | false => exact .inr ⟨h.exists_doublyVouched hbare hbare', .inr ⟨rfl, rfl⟩⟩
    | false =>
      cases hbare' : required.toList.all fun c =>
          isBareExemption (store'.resolve mode id c).path with
      | true =>
        obtain ⟨c, hc, hdoubly⟩ := h.symm.exists_doublyVouched hbare' hbare
        exact .inr ⟨⟨c, hc, h.symm.doublyVouched_of_same hdoubly⟩, .inl ⟨rfl, rfl⟩⟩
      | false => exact .inl rfl

theorem SameRecords.sameButForTies_judge [SetOrder] (h : store.SameRecords store') :
    (store.judge mode id required).SameButForTies store mode (store'.judge mode id required) := by
  have hsatisfied : store'.satisfied mode id = store.satisfied mode id := h.satisfied_eq id
  have hunmet : (store'.judge mode id required).unmet = (store.judge mode id required).unmet :=
    congrArg (required \ ·) hsatisfied
  have hstatus : ∀ s : AuditStore model, s.satisfied mode id = store.satisfied mode id →
      (s.judge mode id required).status =
        if (required \ store.satisfied mode id).toList.isEmpty then s.classify mode id required
        else .unvetted := by
    intro s hs
    simp only [judge, hs, List.isEmpty_map]
  have hfirst := hstatus store rfl
  have hsecond := hstatus store' hsatisfied
  refine ⟨rfl, rfl, hsatisfied, hunmet, ?_, fun huntied => ?_⟩
  · rw [hfirst, hsecond]
    split
    · exact h.classify_eq_or.imp_right And.right
    · exact .inl rfl
  · rw [hfirst, hsecond]
    split
    · refine h.classify_eq_or.resolve_right fun htie => ?_
      obtain ⟨⟨c, hc, hdoubly⟩, _⟩ := htie
      exact huntied c hc hdoubly
    · rfl

variable {g : DependencyGraph} {policies : PolicyTable} {first second : Requirements}

/-- Where the same is required everywhere, the conclusion is the same. -/
theorem SameRecords.conclusion_eq [SetOrder] (h : store.SameRecords store')
    (hsame : ∀ id ∈ g.thirdParty, second.of id.key = first.of id.key) :
    (store'.report mode g second).conclusion = (store.report mode g first).conclusion := by
  have hcoherent : (store.report mode g first).Coherent store mode g first := Report.coherent_report
  have hcoherent' : (store'.report mode g second).Coherent store' mode g second :=
    Report.coherent_report
  have hconflicts : (store'.report mode g second).conflicts ≠ [] ↔
      (store.report mode g first).conflicts ≠ [] := by
    rw [← not_iff_not, not_not, not_not, List.eq_nil_iff_forall_not_mem,
      List.eq_nil_iff_forall_not_mem]
    exact forall_congr' fun x => not_congr h.mem_conflictsIn
  have hdenied : (store'.report mode g second).Denied store' ↔
      (store.report mode g first).Denied store := by
    refine or_congr hconflicts ?_
    simp only [report, List.mem_map, exists_exists_and_eq_and]
    refine exists_congr fun id => and_congr_right fun hid => exists_congr fun c => ?_
    exact and_congr (by rw [judge, judge, hsame id hid]) h.vetoed_iff
  have hwanting : (store'.report mode g second).Wanting ↔ (store.report mode g first).Wanting := by
    simp only [Report.Wanting, report, List.mem_map, exists_exists_and_eq_and]
    refine exists_congr fun id => and_congr_right fun hid => exists_congr fun c => ?_
    have hunmet : (store'.judge mode id (first.of id.key)).unmet =
        (store.judge mode id (first.of id.key)).unmet := h.sameButForTies_judge.unmet_eq
    rw [hsame id hid, hunmet]
  by_cases hd : (store.report mode g first).Denied store
  · rw [hcoherent.failViolation_iff.2 hd, hcoherent'.failViolation_iff.2 (hdenied.2 hd)]
  · by_cases hw : (store.report mode g first).Wanting
    · rw [hcoherent.failVetting_iff.2 ⟨hd, hw⟩,
        hcoherent'.failVetting_iff.2 ⟨mt hdenied.1 hd, hwanting.2 hw⟩]
    · rw [hcoherent.success_iff.2 ⟨hd, hw⟩,
        hcoherent'.success_iff.2 ⟨mt hdenied.1 hd, mt hwanting.1 hw⟩]

/-- What two vets have in common over the same records in different orders. What is satisfied is
the same; what is required is as far as the records found in one order ask what those of the other
do, and so wherever equally short chains of records ask the same. -/
structure Reorders [SetOrder] (store store' : AuditStore model) (mode : ExemptionMode)
    (g : DependencyGraph) (policies : PolicyTable) (first second : Requirements) : Prop where
  vet_eq : (store.vetLogged mode g policies).outcome = .ok (store.report mode g first)
  vet_eq' : (store'.vetLogged mode g policies).outcome = .ok (store'.report mode g second)
  satisfied_eq : ∀ m id, store'.satisfied m id = store.satisfied m id
  vetoed_iff : ∀ key c, store'.Vetoed key c ↔ store.Vetoed key c
  conflicts : ∀ x, x ∈ (store'.report mode g second).conflicts ↔
    x ∈ (store.report mode g first).conflicts
  required_eq_iff : (∀ k ∈ g.members.map Member.key, second.of k = first.of k) ↔
    (store'.propagator mode policies).Solves g first.of
  required_eq : ∀ A : PackageKey → Prop, (∀ e ∈ g.edges, A e.child.key → A e.parent.key) →
    (∀ e ∈ g.edges, A e.child.key → g.isFirstParty e.parent.key = false →
      g.isFirstParty e.child.key = false → ∀ c ∈ first.of e.parent.key,
        store.AsksAlike mode e.parent c e.child.package) →
      ∀ k ∈ g.members.map Member.key, A k → second.of k = first.of k
  required_eq_of_unnamed : (∀ e ∈ g.edges, g.isFirstParty e.parent.key = false →
    g.isFirstParty e.child.key = false → ∀ r ∈ store.accepted, r.package = e.parent.package →
      r.dependencyCriteria.get? e.child.package = none) →
        ∀ k ∈ g.members.map Member.key, second.of k = first.of k
  verdict : ∀ id ∈ g.thirdParty, second.of id.key = first.of id.key →
    (store.judge mode id (first.of id.key)).SameButForTies store mode
      (store'.judge mode id (second.of id.key))
  conclusion_eq : (∀ id ∈ g.thirdParty, second.of id.key = first.of id.key) →
    (store'.report mode g second).conclusion = (store.report mode g first).conclusion

theorem SameRecords.reorders [SetOrder] (h : store.SameRecords store')
    (hcheck : policies.check model = .ok ())
    (hfirst : (store.propagator mode policies).propagate g = .ok first)
    (hsecond : (store'.propagator mode policies).propagate g = .ok second) :
    store.Reorders store' mode g policies first second := by
  have hp : (store.propagator mode policies).Lawful := lawful_propagator hcheck
  have hq : (store'.propagator mode policies).Lawful := lawful_propagator hcheck
  have hrequired : ∀ A : PackageKey → Prop, (∀ e ∈ g.edges, A e.child.key → A e.parent.key) →
      (∀ e ∈ g.edges, A e.child.key → g.isFirstParty e.parent.key = false →
        g.isFirstParty e.child.key = false → ∀ c ∈ first.of e.parent.key,
          store.AsksAlike mode e.parent c e.child.package) →
        ∀ k ∈ g.members.map Member.key, A k → second.of k = first.of k := by
    intro A hclosed halike
    refine Propagator.required_eq_of_owed hp hq hfirst hsecond hclosed fun e he hA hthird => ?_
    refine Propagator.owed_congr_required (p := store.propagator mode policies)
      (q := store'.propagator mode policies) rfl rfl fun hparent c hc => ?_
    exact h.override?_eq (halike e he hA hparent hthird c hc)
  refine ⟨?_, ?_, fun m id => h.satisfied_eq id, fun _ _ => h.vetoed_iff,
    fun _ => h.mem_conflictsIn, ?_, hrequired, fun hunnamed k hk => ?_, fun id _ hsame => ?_,
    h.conclusion_eq⟩
  · rw [outcome_vetLogged]
    exact vet_of_propagate hcheck hfirst
  · rw [outcome_vetLogged]
    exact vet_of_propagate hcheck hsecond
  · rw [Propagator.solves_iff_of_propagate hq hsecond]
    exact forall₂_congr fun _ _ => eq_comm
  · refine hrequired (fun _ => True) (fun _ _ _ => trivial)
      (fun e he _ hparent hchild c _ => ?_) k hk trivial
    exact asksAlike_of_unnamed (hunnamed e he hparent hchild)
  · rw [hsame]
    exact h.sameButForTies_judge

/-- Two orders of the same records: either neither vet gives a report, for the same reason, or both
do, and they can only differ by ties between chains of records. -/
theorem vets_reorder [SetOrder] {records records' : List AuditRecord} (h : records.Perm records') :
    (∃ fault, ((ofRecords model records).vetLogged mode g policies).outcome = .error fault ∧
      ((ofRecords model records').vetLogged mode g policies).outcome = .error fault) ∨
    ∃ first second, (ofRecords model records).Reorders (ofRecords model records') mode g policies
      first second := by
  cases hcheck : policies.check model with
  | error fault =>
    have hfault : ∀ store : AuditStore model,
        (store.vetLogged mode g policies).outcome = .error (.criteria fault) := by
      intro store
      rw [outcome_vetLogged, vet, hcheck]
      rfl
    exact .inl ⟨_, hfault _, hfault _⟩
  | ok =>
    cases horder : g.topological with
    | error fault =>
      have hfault : ∀ store : AuditStore model,
          (store.vetLogged mode g policies).outcome = .error fault := by
        intro store
        rw [outcome_vetLogged, vet, hcheck, Propagator.propagate, horder]
        rfl
      exact .inl ⟨_, hfault _, hfault _⟩
    | ok order =>
      have hlawful : ∀ store : AuditStore model, (store.propagator mode policies).Lawful :=
        fun store => lawful_propagator hcheck
      obtain ⟨first, hfirst, _⟩ := Propagator.propagate_of_topological (hlawful _) horder
      obtain ⟨second, hsecond, _⟩ := Propagator.propagate_of_topological (hlawful _) horder
      exact .inr ⟨first, second, (sameRecords_ofRecords h).reorders hcheck hfirst hsecond⟩

/-- The middle package is exempted, and was reviewed for being run on the premise that its base is
safe to deploy. The base was reviewed for being run only. -/
def tiedRecords : List AuditRecord :=
  let v : Version := { major := 1, minor := 0, patch := 0 }
  [.full { package := "middle", version := v, criteria := .single safeToRun
           dependencyCriteria := .ofList [("base", .single safeToDeploy)] },
    .exemption { package := "middle", version := v, criteria := .single safeToDeploy },
    .full { package := "base", version := v, criteria := .single safeToRun }]

/-- What the application depends on has to be safe to deploy and to run. -/
def twofoldPolicies : PolicyTable where
  policies := (∅ : NameMap Policy).insert "app"
    { criteria := some (.ofList [safeToDeploy, safeToRun]) }

theorem vets_reorder_tiedRecords :
    tiedRecords.Perm tiedRecords.reverse ∧
      (∃ report, ((ofRecords .builtin tiedRecords).vetLogged .allow pipeline
        twofoldPolicies).outcome = .ok report) ∧
      ((∃ fault, ((ofRecords .builtin tiedRecords).vetLogged .allow pipeline
            twofoldPolicies).outcome = .error fault ∧
          ((ofRecords .builtin tiedRecords.reverse).vetLogged .allow pipeline
            twofoldPolicies).outcome = .error fault) ∨
        ∃ first second, (ofRecords .builtin tiedRecords).Reorders
          (ofRecords .builtin tiedRecords.reverse) .allow pipeline twofoldPolicies first
            second) := by
  have hperm : tiedRecords.Perm tiedRecords.reverse := tiedRecords.reverse_perm.symm
  obtain ⟨report, hvet, _⟩ : ∃ report,
      ((ofRecords .builtin tiedRecords).vetLogged .allow pipeline twofoldPolicies).outcome =
          .ok report ∧
        report.conclusion = .failVetting := exists_report_of_conclusion (by decide +kernel)
  exact ⟨hperm, ⟨report, hvet⟩, vets_reorder hperm⟩

/-- Of two records that vouch for a criterion on their own, the first decides what is asked of
dependencies, and so whether a vet passes. It decides too whether a package passes with exemptions
only, even where the same is required of it. -/
theorem exists_order_that_fails :
    ∃ (records records' : List AuditRecord) (report report' : Report), records.Perm records' ∧
      ((ofRecords .builtin records).vetLogged .allow pipeline twofoldPolicies).outcome =
        .ok report ∧
      ((ofRecords .builtin records').vetLogged .allow pipeline twofoldPolicies).outcome =
        .ok report' ∧
      report.conclusion = .failVetting ∧ report'.conclusion = .success ∧
        ∃ v ∈ report.verdicts, ∃ w ∈ report'.verdicts, w.id = v.id ∧ w.required = v.required ∧
          v.status = .partially ∧ w.status = .withExemptions := by
  let middle : PackageId := ⟨"middle", { major := 1, minor := 0, patch := 0 }⟩
  let both : NameSet := .ofList [safeToDeploy, safeToRun]
  obtain ⟨report, hvet, hreport⟩ : ∃ report,
      ((ofRecords .builtin tiedRecords).vetLogged .allow pipeline twofoldPolicies).outcome =
          .ok report ∧
        (decide (report.conclusion = .failVetting) && report.verdicts.any fun v =>
          decide (v.id = middle ∧ v.required = both ∧ v.status = .partially)) = true :=
    exists_report_of_any (by decide +kernel)
  obtain ⟨report', hvet', hreport'⟩ : ∃ report,
      ((ofRecords .builtin tiedRecords.reverse).vetLogged .allow pipeline twofoldPolicies).outcome =
          .ok report ∧
        (decide (report.conclusion = .success) && report.verdicts.any fun v =>
          decide (v.id = middle ∧ v.required = both ∧ v.status = .withExemptions)) = true :=
    exists_report_of_any (by decide +kernel)
  simp only [Bool.and_eq_true, decide_eq_true_eq, List.any_eq_true] at hreport hreport'
  obtain ⟨hfails, v, hv, hvid, hvrequired, hvstatus⟩ := hreport
  obtain ⟨hpasses, w, hw, hwid, hwrequired, hwstatus⟩ := hreport'
  exact ⟨_, _, report, report', tiedRecords.reverse_perm.symm, hvet, hvet', hfails, hpasses, v, hv,
    w, hw, hwid.trans hvid.symm, hwrequired.trans hvrequired.symm, hvstatus, hwstatus⟩

end AuditStore

end Vetting
