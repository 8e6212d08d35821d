import Vetting.Proofs.Resolution
import Vetting.Report.Vet

/-! What one package owes another. Where policies name known criteria and evidence comes from a
store, nothing unknown is ever passed on, so no look-up on the way can fail. -/

namespace Vetting

theorem bind_eq_ok {ε α β : Type} {x : Except ε α} {f : α → Except ε β} {b : β}
    (h : x >>= f = .ok b) : ∃ a, x = .ok a ∧ f a = .ok b := by
  cases x with
  | error e => cases h
  | ok a => exact ⟨a, rfl, h⟩

theorem ok_bind {ε α β : Type} (a : α) (f : α → Except ε β) : (Except.ok a >>= f) = f a := rfl

theorem exists_of_map_eq_ok {ε α β : Type} {x : Except ε α} {f : α → β} {b : β}
    (h : x.map f = .ok b) : ∃ a, x = .ok a ∧ f a = b := by
  cases x with
  | error e => cases h
  | ok a => exact ⟨a, rfl, Except.ok.inj h⟩

theorem exists_ok_of_any {ε α : Type} {x : Except ε α} {p : α → Bool}
    (h : x.toOption.any p = true) : ∃ a, x = .ok a ∧ p a = true := by
  cases x with
  | error e => cases h
  | ok a => exact ⟨a, rfl, h⟩

theorem forM_eq_ok_iff {ε α : Type} {f : α → Except ε Unit} {l : List α} :
    l.forM f = .ok () ↔ ∀ a ∈ l, f a = .ok () := by
  induction l with
  | nil => exact ⟨fun _ _ h => absurd h List.not_mem_nil, fun _ => rfl⟩
  | cons a as ih =>
    have hcons : (a :: as).forM f = f a >>= fun _ => as.forM f := rfl
    rw [hcons, List.forall_mem_cons, ← ih]
    constructor
    · intro h
      obtain ⟨_, ha, has⟩ := bind_eq_ok h
      exact ⟨ha, has⟩
    · intro hx
      obtain ⟨ha, has⟩ := hx
      rw [ha]
      exact has

theorem exists_of_forM_eq_error {ε α : Type} {f : α → Except ε Unit} {l : List α} {fault : ε}
    (h : l.forM f = .error fault) : ∃ a ∈ l, f a = .error fault := by
  induction l with
  | nil => cases h
  | cons a as ih =>
    have hcons : (a :: as).forM f = f a >>= fun _ => as.forM f := rfl
    rw [hcons] at h
    cases hfirst : f a with
    | error first =>
      rw [hfirst] at h
      cases h
      exact ⟨a, List.mem_cons_self .., hfirst⟩
    | ok =>
      rw [hfirst, ok_bind] at h
      obtain ⟨b, hb, hfault⟩ := ih h
      exact ⟨b, List.mem_cons_of_mem _ hb, hfault⟩

namespace CriteriaModel

variable {m : CriteriaModel}

theorem safeToRun_mem : safeToRun ∈ m := by
  show safeToRun ∈ namesOf (builtinCriteria ++ m.custom)
  rw [namesOf, NameSet.mem_ofList, List.map_append]
  refine List.mem_append_left _ ?_
  decide

theorem check_eq_error {name context : String} {fault : CriteriaFault}
    (h : m.check name context = .error fault) :
    name ∉ m ∧ fault = m.unknownFault name context := by
  unfold check at h
  split at h
  · cases h
  · next hunknown => exact ⟨hunknown, (Except.error.inj h).symm⟩

theorem checkAll_eq_ok_iff {names : List String} {context : String} :
    m.checkAll names context = .ok () ↔ ∀ name ∈ names, name ∈ m := by
  rw [checkAll, forM_eq_ok_iff]
  simp only [m.check_eq_ok_iff]

end CriteriaModel

theorem NameMap.mem_entries_of_get? {α : Type} {m : NameMap α} {name : String} {value : α}
    (h : m.get? name = some value) : (name, value) ∈ m.entries := by
  obtain ⟨entries, _⟩ := m
  change entries.lookup name = some value at h
  induction entries with
  | nil => cases h
  | cons e es ih =>
    obtain ⟨n, v⟩ := e
    rw [lookup_cons_eq] at h
    split at h
    · next hn =>
      cases h
      subst hn
      exact List.mem_cons_self ..
    · next ascending _ => exact List.mem_cons_of_mem _ (ih (List.pairwise_cons.1 ascending).2 h)

namespace PolicyTable

variable {t : PolicyTable} {m : CriteriaModel} {c : String}

theorem check_eq_ok_iff : t.check m = .ok () ↔
    t.default ∈ m ∧ ∀ e ∈ t.policies.entries, ∀ c ∈ e.2.named, c ∈ m := by
  have hentries : (t.policies.entries.forM fun e =>
      m.checkAll e.2.named.toList s!"policy for {e.1}") = .ok () ↔
        ∀ e ∈ t.policies.entries, ∀ c ∈ e.2.named, c ∈ m := by
    rw [forM_eq_ok_iff]
    simp only [CriteriaModel.checkAll_eq_ok_iff, NameSet.mem_toList]
  have hdefault : m.check t.default "default-criteria" = .ok () ↔ t.default ∈ m :=
    m.check_eq_ok_iff
  rw [← hentries, ← hdefault]
  constructor
  · intro h
    obtain ⟨_, hdefault, hrest⟩ := bind_eq_ok h
    exact ⟨hdefault, hrest⟩
  · intro hx
    obtain ⟨hdefault, hrest⟩ := hx
    rw [check, hdefault]
    exact hrest

theorem Policy.mem_requiredOf {p : Policy} {dependency default : String} {kind : DependencyKind}
    (h : c ∈ p.requiredOf dependency kind default) :
    c ∈ p.named ∨ c = safeToRun ∨ c = default := by
  unfold Policy.requiredOf at h
  split at h
  · next names hnames =>
    refine .inl ?_
    simp only [Policy.named, NameSet.mem_union, NameSet.mem_unions]
    exact .inr ⟨names, List.mem_map_of_mem (NameMap.mem_entries_of_get? hnames), h⟩
  · split at h
    · cases hdev : p.devCriteria with
      | none =>
        rw [hdev] at h
        exact .inr (.inl (NameSet.mem_single.1 h))
      | some names =>
        rw [hdev] at h
        refine .inl ?_
        simp only [Policy.named, NameSet.mem_union, hdev]
        exact .inl (.inr h)
    · cases hnormal : p.criteria with
      | none =>
        rw [hnormal] at h
        exact .inr (.inr (NameSet.mem_single.1 h))
      | some names =>
        rw [hnormal] at h
        refine .inl ?_
        simp only [Policy.named, NameSet.mem_union, hnormal]
        exact .inl (.inl h)

theorem known_of_mem_requiredOf (ht : t.check m = .ok ()) {parent dependency : String}
    {kind : DependencyKind} (h : c ∈ t.requiredOf parent dependency kind) : c ∈ m := by
  obtain ⟨hdefault, hnamed⟩ := check_eq_ok_iff.1 ht
  rcases Policy.mem_requiredOf h with hc | rfl | rfl
  · cases hp : t.policies.get? parent with
    | none =>
      rw [policyOf, hp] at hc
      exact absurd hc (NameSet.not_mem_empty c)
    | some p =>
      rw [policyOf, hp] at hc
      exact hnamed _ (NameMap.mem_entries_of_get? hp) c hc
  · exact CriteriaModel.safeToRun_mem
  · exact hdefault

end PolicyTable

namespace AuditRecord

theorem known_of_fault?_eq_none {m : CriteriaModel} {r : AuditRecord} {filed dependency c : String}
    {names : NameSet} (h : r.fault? m filed = none)
    (hnames : r.dependencyCriteria.get? dependency = some names) (hc : c ∈ names) : c ∈ m := by
  obtain ⟨_, _, _, hnone, _⟩ := fault?_eq_none_iff.1 h
  have hentry : (dependency, names) ∈ r.dependencyCriteria.entries :=
    NameMap.mem_entries_of_get? hnames
  exact dependencyFault?_eq_none_iff.1 hnone _ hentry c hc

end AuditRecord

namespace Propagator

/-- What propagation relies on: the policies name known criteria, and the evidence asks
for known criteria and is the same for all names of a version. -/
structure Lawful (p : Propagator) : Prop where
  checked : p.policies.check p.model = .ok ()
  asked_known : ∀ {parent : PackageId} {criterion dependency : String} {names : NameSet},
    p.override? parent criterion dependency = some names → ∀ c ∈ names, c ∈ p.model
  asked_congr : ∀ {a b : PackageId}, a.key = b.key → ∀ criterion dependency,
    p.override? a criterion dependency = p.override? b criterion dependency

theorem mem_of_asked? {records : List AuditRecord} {dependency c : String} {names : NameSet}
    (h : asked? records dependency = some names) (hc : c ∈ names) :
    ∃ r ∈ records, ∃ s, r.dependencyCriteria.get? dependency = some s ∧ c ∈ s := by
  unfold asked? at h
  split at h
  · cases h
  · cases h
    obtain ⟨s, hs, hcs⟩ := NameSet.mem_unions.1 hc
    obtain ⟨r, hr, hrs⟩ := List.mem_filterMap.1 hs
    exact ⟨r, hr, s, hrs, hcs⟩

/-- The propagator of policies and, where there is one, a store and the mode it is asked in. -/
def through [SetOrder] {model : CriteriaModel} (policies : PolicyTable)
    (resolver : Option (AuditStore model × ExemptionMode)) : Propagator :=
  { model, policies, evidence := resolver.map fun (store, mode) => store.evidence mode }

theorem lawful_through [SetOrder] {model : CriteriaModel} {policies : PolicyTable}
    (h : policies.check model = .ok ()) (resolver : Option (AuditStore model × ExemptionMode)) :
    (through policies resolver).Lawful := by
  refine ⟨h, ?_, ?_⟩
  · intro parent criterion dependency names hnames c hc
    cases resolver with
    | none => cases hnames
    | some resolver =>
      obtain ⟨store, mode⟩ := resolver
      obtain ⟨r, hr, s, hs, hcs⟩ := mem_of_asked? hnames hc
      have haccepted := (AuditStore.counts_of_mem_path hr).accepted
      exact AuditRecord.known_of_fault?_eq_none (store.valid r haccepted) hs hcs
  · intro a b hab criterion dependency
    cases resolver with
    | none => rfl
    | some resolver =>
      obtain ⟨store, mode⟩ := resolver
      show asked? (store.resolve mode a criterion).path dependency =
        asked? (store.resolve mode b criterion).path dependency
      rw [AuditStore.resolve_congr_key hab]

variable {p : Propagator} {g : DependencyGraph} {parent child a b : PackageId}
  {dependency c d : String} {kind : DependencyKind} {required more : NameSet}

theorem mem_replaced :
    d ∈ NameSet.unions (required.toList.filterMap fun c => p.override? parent c dependency) ↔
      ∃ c ∈ required, ∃ names, p.override? parent c dependency = some names ∧ d ∈ names := by
  rw [NameSet.mem_unions]
  constructor
  · intro hx
    obtain ⟨names, hnames, hd⟩ := hx
    obtain ⟨c, hc, hoverride⟩ := List.mem_filterMap.1 hnames
    exact ⟨c, hc, names, hoverride, hd⟩
  · intro hx
    obtain ⟨c, hc, names, hoverride, hd⟩ := hx
    exact ⟨names, List.mem_filterMap.2 ⟨c, hc, hoverride⟩, hd⟩

/-- What is passed on is asked for by records, or is a requirement that no record replaces. -/
theorem mem_passedOn :
    d ∈ p.passedOn parent dependency kind required ↔
      ∃ c ∈ required, (∃ names, p.override? parent c dependency = some names ∧ d ∈ names) ∨
        (p.override? parent c dependency = none ∧
          d = if kind.isRunTier && p.model.implies c safeToRun then safeToRun else c) := by
  have hkept : ∀ c, c ∈ required.filter (fun c => (p.override? parent c dependency).isNone) ↔
      c ∈ required ∧ p.override? parent c dependency = none := by
    intro c
    rw [NameSet.mem_filter, Option.isNone_iff_eq_none]
  rw [passedOn, NameSet.mem_union, mem_replaced]
  cases hk : kind.isRunTier with
  | true =>
    simp only [if_true, CriteriaModel.downgrade, NameSet.mem_map, hkept, Bool.true_and]
    constructor
    · intro hx
      rcases hx with ⟨c, hc, h⟩ | ⟨c, ⟨hc, hnone⟩, rfl⟩
      · exact ⟨c, hc, .inl h⟩
      · exact ⟨c, hc, .inr ⟨hnone, rfl⟩⟩
    · rintro ⟨c, hc, h | ⟨hnone, rfl⟩⟩
      · exact .inl ⟨c, hc, h⟩
      · exact .inr ⟨c, ⟨hc, hnone⟩, rfl⟩
  | false =>
    simp only [if_false, hkept, Bool.false_and, Bool.false_eq_true]
    constructor
    · intro hx
      rcases hx with ⟨c, hc, h⟩ | ⟨hd, hnone⟩
      · exact ⟨c, hc, .inl h⟩
      · exact ⟨d, hd, .inr ⟨hnone, rfl⟩⟩
    · rintro ⟨c, hc, h | ⟨hnone, rfl⟩⟩
      · exact .inl ⟨c, hc, h⟩
      · exact .inr ⟨hc, hnone⟩

theorem owed_mono (h : ∀ c ∈ required, c ∈ more) (hd : d ∈ p.owed g parent child kind required) :
    d ∈ p.owed g parent child kind more := by
  unfold owed at hd ⊢
  split at hd
  · next hfirst => rwa [if_pos hfirst]
  · next hfirst =>
    rw [if_neg hfirst, mem_passedOn]
    obtain ⟨c, hc, hpassed⟩ := mem_passedOn.1 hd
    exact ⟨c, h c hc, hpassed⟩

theorem owed_congr_key (hp : p.Lawful) (h : a.key = b.key) :
    p.owed g a child kind required = p.owed g b child kind required := by
  have hpackage : a.package = b.package := congrArg PackageKey.package h
  ext d
  simp only [owed, h, hpackage]
  split
  · exact Iff.rfl
  · simp only [mem_passedOn, hp.asked_congr h]

/-- What is owed depends on the records only for what they ask of the dependency in place of what is
required. -/
theorem owed_congr_override {q : Propagator} (hmodel : q.model = p.model)
    (hpolicies : q.policies = p.policies) (h : g.isFirstParty parent.key = false → ∀ c ∈ required,
      q.override? parent c child.package = p.override? parent c child.package) :
    q.owed g parent child kind required = p.owed g parent child kind required := by
  rw [owed, owed, hpolicies]
  split
  · rfl
  · next hthird =>
    have hsame := h (Bool.eq_false_iff.2 hthird)
    ext d
    simp only [mem_passedOn, hmodel]
    refine exists_congr fun c => and_congr_right fun hc => ?_
    rw [hsame c hc]

theorem transmitted_congr {q : Propagator} (hmodel : q.model = p.model)
    (hpolicies : q.policies = p.policies) (hsome : q.evidence.isSome = p.evidence.isSome)
    (h : g.isFirstParty parent.key = false → ∀ c ∈ required,
      q.override? parent c child.package = p.override? parent c child.package) :
    q.transmitted g parent child kind required = p.transmitted g parent child kind required := by
  rw [transmitted, transmitted, hsome, hmodel, owed_congr_override hmodel hpolicies h]

theorem known_of_mem_owed (hp : p.Lawful) (h : ∀ c ∈ required, c ∈ p.model)
    (hd : d ∈ p.owed g parent child kind required) : d ∈ p.model := by
  unfold owed at hd
  split at hd
  · exact PolicyTable.known_of_mem_requiredOf hp.checked hd
  · obtain ⟨c, hc, ⟨names, hnames, hdn⟩ | ⟨_, rfl⟩⟩ := mem_passedOn.1 hd
    · exact hp.asked_known hnames d hdn
    · split
      · exact CriteriaModel.safeToRun_mem
      · exact h c hc

theorem transmitted_of_known (h : ∀ c ∈ required, c ∈ p.model) :
    p.transmitted g parent child kind required = .ok (p.owed g parent child kind required) := by
  unfold transmitted
  split
  · have hall : p.model.checkAll required.toList = .ok () :=
      CriteriaModel.checkAll_eq_ok_iff.2 h
    rw [hall]
    rfl
  · rfl

end Propagator

end Vetting
