import Vetting.Proofs.StricterMode

/-! Requirements grow with the graph and with the policies, whatever records ask of dependencies and
in whatever order packages are taken, as long as the same records stand behind every criterion. -/

namespace Vetting

namespace DependencyGraph

variable {g g' : DependencyGraph}

/-- Whether two graphs have the same packages, first-party in both or in neither, and every edge
of the first is one of the second. -/
structure GrowsTo (g g' : DependencyGraph) : Prop where
  members : ∀ k, k ∈ g.members.map Member.key ↔ k ∈ g'.members.map Member.key
  firstParty : ∀ k, g.isFirstParty k = g'.isFirstParty k
  edges : ∀ e ∈ g.edges, ∃ e' ∈ g'.edges, e.agrees e' = true

theorem agrees_iff {d e : Dependency} : d.agrees e = true ↔
    d.parent.key = e.parent.key ∧ d.child.key = e.child.key ∧ d.kind = e.kind := by
  simp [Dependency.agrees, and_assoc]

theorem GrowsTo.joins (h : g.GrowsTo g') {a b : PackageKey} (hjoins : Joins g.edges a b) :
    Joins g'.edges a b := by
  obtain ⟨e, he, rfl, rfl⟩ := hjoins
  obtain ⟨e', he', hagrees⟩ := h.edges e he
  obtain ⟨hparent, hchild, _⟩ := agrees_iff.1 hagrees
  exact ⟨e', he', hparent.symm, hchild.symm⟩

theorem GrowsTo.acyclic (h : g.GrowsTo g') (hg : g'.Acyclic) : g.Acyclic := by
  intro k hk
  have hmono : ∀ a b, Joins g.edges a b → Joins g'.edges a b := fun _ _ => h.joins
  exact hg k (Relation.TransGen.mono hmono k k hk)

end DependencyGraph

/-- Whether all that the first requires of the packages of a graph the second one requires too. -/
def Requirements.Within (g : DependencyGraph) (r r' : Requirements) : Prop :=
  ∀ k ∈ g.members.map Member.key, ∀ c ∈ r.of k, c ∈ r'.of k

namespace Propagator

variable {p q : Propagator} {g g' : DependencyGraph} {c : String} {required : NameSet}

/-- Whether two propagators go by the same records, and the policies of the second one ask for all
that those of the first one ask for. -/
structure GrowsTo (p q : Propagator) : Prop where
  model_eq : q.model = p.model
  override_eq : ∀ parent criterion dependency,
    q.override? parent criterion dependency = p.override? parent criterion dependency
  policies : ∀ a d kind, ∀ c ∈ p.policies.requiredOf a d kind, c ∈ q.policies.requiredOf a d kind

/-- Over edges that join the same packages in the same way, what is owed grows with the policies:
the records ask the same, and what they do not replace is passed on alike. -/
theorem GrowsTo.owed (h : p.GrowsTo q) (hp : p.Lawful)
    (hfirst : ∀ k, g.isFirstParty k = g'.isFirstParty k) {e e' : Dependency}
    (hagrees : e.agrees e' = true) (hc : c ∈ p.owed g e.parent e.child e.kind required) :
    c ∈ q.owed g' e'.parent e'.child e'.kind required := by
  obtain ⟨hparent, hchild, hkind⟩ := DependencyGraph.agrees_iff.1 hagrees
  have hpackage : e.parent.package = e'.parent.package := congrArg PackageKey.package hparent
  have hdependency : e.child.package = e'.child.package := congrArg PackageKey.package hchild
  rw [owed_congr_key hp hparent] at hc
  unfold Propagator.owed at hc ⊢
  rw [hfirst, hdependency, hkind] at hc
  split at hc
  · next hf =>
    rw [if_pos hf]
    exact h.policies _ _ _ c hc
  · next hf =>
    rw [if_neg hf]
    simp only [mem_passedOn, h.override_eq, h.model_eq] at hc ⊢
    exact hc

/-- With the same records behind every criterion, more edges and policies that ask for more require
of no package less. -/
theorem GrowsTo.propagate (h : p.GrowsTo q) (hp : p.Lawful) (hq : q.Lawful) (hg : g'.Acyclic)
    (hgrows : g.GrowsTo g') :
    ∃ r r', p.propagate g = .ok r ∧ q.propagate g' = .ok r' ∧ r.Within g r' := by
  obtain ⟨r, hr⟩ := exists_propagate hp (hgrows.acyclic hg)
  obtain ⟨r', hr'⟩ := exists_propagate hq hg
  refine ⟨r, r', hr, hr', ?_⟩
  -- What the second run requires meets all that is owed in the first, which finds the least such.
  apply least_of_propagate hp hr
  intro e he hthird c hc
  obtain ⟨e', he', hagrees⟩ := hgrows.edges e he
  obtain ⟨hparent, hchild, _⟩ := DependencyGraph.agrees_iff.1 hagrees
  have hthird' : g'.isFirstParty e'.child.key = false := by
    rw [← hchild, ← hgrows.firstParty]
    exact hthird
  have howed := h.owed hp hgrows.firstParty hagrees hc
  rw [hparent] at howed
  rw [hchild]
  exact required_of_owed hq hr' he' hthird' howed

end Propagator

end Vetting
