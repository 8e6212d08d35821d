import Vetting.Proofs.Implication
import Vetting.Proofs.Obligation

/-! Minimal criteria. What is left of a set when implied names are dropped, all at once, is the
least set of known names that stands for the same criteria, whichever set it was made of. -/

namespace Vetting.CriteriaModel

variable {m : CriteriaModel} {s t : NameSet} {c d : String}

/-- Whether a set is the least one that stands for the same criteria as a given set. -/
structure LeastFor (m : CriteriaModel) (s least : NameSet) : Prop where
  subset : ∀ c ∈ least, c ∈ s
  expand_eq : m.expand least = m.expand s
  independent : ∀ c ∈ least, ∀ d ∈ least, m.implies c d = true → c = d
  subset_of_expand_eq : ∀ t, m.expand t = m.expand s → ∀ c ∈ least, c ∈ t

theorem mem_expand_of_mem (hc : c ∈ s) : c ∈ m.expand s :=
  m.mem_expand.2 ⟨c, hc, m.self_mem_closure c⟩

theorem expand_minimize (m : CriteriaModel) (s : NameSet) :
    m.expand (m.minimize s) = m.expand s := by
  ext c
  exact mem_expand_minimize

/-- Nothing that a set stands for implies a minimal member of it but that member itself. -/
theorem eq_of_mem_minimize (hc : c ∈ m.minimize s) (hd : d ∈ m.expand s)
    (hdc : c ∈ m.closure d) : d = c := by
  obtain ⟨hcs, hminimal⟩ := m.mem_minimize.1 hc
  obtain ⟨e, he, hed⟩ := m.mem_expand.1 hd
  have hec : c ∈ m.closure e := closure_trans hed hdc
  have heq : e = c := by
    by_contra hne
    exact hminimal e he hne hec
  rw [heq] at hed
  exact closure_antisymm hdc hed

theorem independent_minimize (hc : c ∈ m.minimize s) (hd : d ∈ m.minimize s)
    (hcd : m.implies c d = true) : c = d :=
  eq_of_mem_minimize hd (mem_expand_of_mem (m.mem_minimize.1 hc).1) (m.implies_iff.1 hcd)

theorem mem_of_mem_minimize (h : m.expand t = m.expand s) (hc : c ∈ m.minimize s) : c ∈ t := by
  have hexpand : c ∈ m.expand t := h ▸ mem_expand_of_mem (m.mem_minimize.1 hc).1
  obtain ⟨d, hd, hdc⟩ := m.mem_expand.1 hexpand
  -- The member of the other set that implies the minimal one stands for nothing new.
  have hds : d ∈ m.expand s := h ▸ mem_expand_of_mem hd
  exact eq_of_mem_minimize hc hds hdc ▸ hd

theorem leastFor_minimize (m : CriteriaModel) (s : NameSet) : m.LeastFor s (m.minimize s) where
  subset _ hc := (m.mem_minimize.1 hc).1
  expand_eq := m.expand_minimize s
  independent _ hc _ hd := independent_minimize hc hd
  subset_of_expand_eq _ h _ := mem_of_mem_minimize h

theorem minimize_eq_of_expand_eq (h : m.expand s = m.expand t) : m.minimize s = m.minimize t := by
  -- Each of the two is among the sets that the other one is the least of.
  ext c
  constructor
  · exact mem_of_mem_minimize ((m.expand_minimize t).trans h.symm)
  · exact mem_of_mem_minimize ((m.expand_minimize s).trans h)

theorem checkMinimizable_eq_ok (h : ∀ c ∈ s, c ∈ m) : m.checkMinimizable s = .ok () := by
  rw [checkMinimizable]
  split
  · rfl
  · exact checkAll_eq_ok_iff.2 h

/-- Sets of known names are minimized and expanded without a fault. What is left of one is the least
set that stands for the same criteria, and the same for all sets that stand for them. -/
theorem minimize_least (m : CriteriaModel) (s : NameSet) (hs : ∀ c ∈ s, c ∈ m) :
    m.checkMinimizable s = .ok () ∧ m.checkAll s.toList = .ok () ∧
      m.checkAll (m.minimize s).toList = .ok () ∧ m.LeastFor s (m.minimize s) ∧
        ∀ t, m.expand s = m.expand t → m.minimize s = m.minimize t := by
  have hleast : ∀ c ∈ m.minimize s, c ∈ m := fun c hc => hs c (m.mem_minimize.1 hc).1
  exact ⟨checkMinimizable_eq_ok hs, checkAll_eq_ok_iff.2 hs, checkAll_eq_ok_iff.2 hleast,
    m.leastFor_minimize s, fun _ => minimize_eq_of_expand_eq⟩

/-- Audited code is licensed and can be deployed, sandboxed code can be run. -/
def tiers : CriteriaModel :=
  ⟨[{ name := "audited", implies := .ofList ["licensed", safeToDeploy] }, { name := "licensed" },
    { name := "sandboxed", implies := .single safeToRun }], by decide +kernel⟩

theorem minimize_least_tiers :
    let s := NameSet.ofList ["audited", "sandboxed", safeToDeploy, safeToRun]
    (∀ c ∈ s, c ∈ tiers) ∧ tiers.LeastFor s (tiers.minimize s) ∧
      tiers.minimize s = .ofList ["audited", "sandboxed"] ∧
        tiers.minimize s = tiers.minimize tiers.names := by
  intro s
  have hs : ∀ c ∈ s, c ∈ tiers := by decide +kernel
  obtain ⟨_, _, _, hleast, hsame⟩ := minimize_least tiers s hs
  exact ⟨hs, hleast, by decide +kernel, hsame tiers.names (by decide +kernel)⟩

end Vetting.CriteriaModel
