import Vetting.Proofs.DependentsFirst
import Vetting.Proofs.Obligation

/-! Propagation, package after package. Where dependents come first, what was sent to the packages
gone through is final, so that in the end each has sent what it owes for all that it was sent. -/

namespace Vetting

namespace Propagator

open Requirements (sumFor mem_sumFor)

variable {p : Propagator} {g : DependencyGraph} {v : PackageId} {t : Transmission} {c : String}
  {a k : PackageKey} {R S : PackageKey → NameSet} {required : NameSet}
  {edges : List Dependency} {taken vs order : List PackageId} {sent more : List Transmission}

def Sends (p : Propagator) (g : DependencyGraph) (v : PackageId) (required : NameSet)
    (t : Transmission) : Prop :=
  ∃ e ∈ g.dependencies v.key, g.isFirstParty e.child.key = false ∧
    t = ⟨v, e.child.key, p.owed g v e.child e.kind required⟩ ∧ ∃ c, c ∈ t.criteria

theorem sendOver_of_known (h : ∀ c ∈ required, c ∈ p.model) :
    ∃ sent, p.sendOver g v required edges = .ok sent ∧ ∀ t, t ∈ sent ↔
      ∃ e ∈ edges, g.isFirstParty e.child.key = false ∧
        t = ⟨v, e.child.key, p.owed g v e.child e.kind required⟩ ∧ ∃ c, c ∈ t.criteria := by
  induction edges with
  | nil => exact ⟨[], rfl, fun t => by simp⟩
  | cons e es ih =>
    obtain ⟨rest, hrest, hmem⟩ := ih
    simp only [List.exists_mem_cons_iff, ← hmem]
    rw [sendOver]
    by_cases hfirst : g.isFirstParty e.child.key = true
    · refine ⟨rest, by rw [if_pos hfirst, hrest], fun t => ?_⟩
      simp [hfirst]
    · rw [if_neg hfirst, transmitted_of_known h, hrest]
      refine ⟨_, rfl, fun t => ?_⟩
      by_cases hempty : (p.owed g v e.child e.kind required).isEmpty = true
      · rw [if_pos hempty]
        refine (or_iff_right ?_).symm
        intro hx
        obtain ⟨_, rfl, c, hc⟩ := hx
        exact NameSet.isEmpty_iff.1 hempty c hc
      · obtain ⟨c, hc⟩ : ∃ c, c ∈ p.owed g v e.child e.kind required :=
          NameSet.isEmpty_eq_false_iff.1 (Bool.eq_false_iff.2 hempty)
        rw [if_neg hempty, List.mem_cons]
        refine or_congr_left ⟨fun ht => ?_, fun ht => ht.2.1⟩
        subst ht
        exact ⟨Bool.eq_false_iff.2 hfirst, rfl, c, hc⟩

/-- What goes over edges depends on the records only for what they ask of third-party dependencies. -/
theorem sendOver_congr {q : Propagator} (hmodel : q.model = p.model)
    (hpolicies : q.policies = p.policies) (hsome : q.evidence.isSome = p.evidence.isSome)
    (h : ∀ e ∈ edges, g.isFirstParty e.child.key = false → g.isFirstParty v.key = false →
      ∀ c ∈ required, q.override? v c e.child.package = p.override? v c e.child.package) :
    q.sendOver g v required edges = p.sendOver g v required edges := by
  induction edges with
  | nil => rfl
  | cons e es ih =>
    have hrest := ih fun d hd => h d (List.mem_cons_of_mem _ hd)
    rw [sendOver, sendOver, hrest]
    split
    · rfl
    · next hthird =>
      have hsame := h e (List.mem_cons_self ..) (Bool.eq_false_iff.2 hthird)
      rw [transmitted_congr hmodel hpolicies hsome hsame]

/-- What holds when some packages were gone through: nothing waits for them any more, all that
was sent is known, and what each sent is what it owes for all that it was sent itself. -/
structure Progress (p : Propagator) (g : DependencyGraph) (taken : List PackageId)
    (sent : List Transmission) : Prop where
  closed : ∀ e ∈ g.edges, e.child.key ∈ taken.map PackageId.key →
    e.parent.key ∈ taken.map PackageId.key
  known : ∀ t ∈ sent, ∀ c ∈ t.criteria, c ∈ p.model
  sent_iff : ∀ t, t ∈ sent ↔ ∃ v ∈ taken, p.Sends g v (sumFor sent v.key) t

theorem Progress.known_sumFor (h : p.Progress g taken sent) : ∀ c ∈ sumFor sent k, c ∈ p.model := by
  intro c hc
  obtain ⟨t, ht, _, hct⟩ := mem_sumFor.1 hc
  exact h.known t ht c hct

theorem sumFor_append (h : ∀ t ∈ more, t.child ≠ k) : sumFor (sent ++ more) k = sumFor sent k := by
  ext c
  simp only [mem_sumFor, List.mem_append]
  constructor
  · rintro ⟨t, ht | ht, hchild, hc⟩
    · exact ⟨t, ht, hchild, hc⟩
    · exact absurd hchild (h t ht)
  · intro hx
    obtain ⟨t, ht, hchild, hc⟩ := hx
    exact ⟨t, .inl ht, hchild, hc⟩

/-- What was sent to the packages gone through, and to one that waits for nothing, is final: no
edge leads from that one to any of them. -/
theorem Progress.sumFor_final (h : p.Progress g taken sent)
    (hfree : ∀ e ∈ g.edges, e.child.key = v.key → e.parent.key ∈ taken.map PackageId.key)
    (hnew : v.key ∉ taken.map PackageId.key) (hmore : ∀ t ∈ more, p.Sends g v required t) :
    ∀ w ∈ taken ++ [v], sumFor (sent ++ more) w.key = sumFor sent w.key := by
  intro w hw
  refine sumFor_append fun t ht hchild => hnew ?_
  obtain ⟨e, he, _, rfl, _⟩ := hmore t ht
  obtain ⟨hedge, hparent⟩ := DependencyGraph.mem_dependencies.1 he
  change e.child.key = w.key at hchild
  rw [← hparent]
  rcases List.mem_append.1 hw with hw | hw
  · exact h.closed e hedge (hchild ▸ List.mem_map_of_mem hw)
  · rw [List.mem_singleton.1 hw] at hchild
    exact hfree e hedge hchild

theorem Progress.step (hp : p.Lawful) (h : p.Progress g taken sent)
    (hfree : ∀ e ∈ g.edges, e.child.key = v.key → e.parent.key ∈ taken.map PackageId.key)
    (hnew : v.key ∉ taken.map PackageId.key) :
    ∃ more, p.sendOver g v (sumFor sent v.key) (g.dependencies v.key) = .ok more ∧
      p.Progress g (taken ++ [v]) (sent ++ more) := by
  obtain ⟨more, hmore, hmem⟩ : ∃ more,
      p.sendOver g v (sumFor sent v.key) (g.dependencies v.key) = .ok more ∧ ∀ t, t ∈ more ↔
        p.Sends g v (sumFor sent v.key) t := sendOver_of_known h.known_sumFor
  have hfinal := h.sumFor_final hfree hnew fun t ht => (hmem t).1 ht
  refine ⟨more, hmore, ?_, ?_, ?_⟩
  · intro e he hchild
    rw [List.map_append, List.mem_append] at hchild ⊢
    rcases hchild with hchild | hchild
    · exact .inl (h.closed e he hchild)
    · exact .inl (hfree e he (List.mem_singleton.1 hchild))
  · intro t ht
    rcases List.mem_append.1 ht with ht | ht
    · exact h.known t ht
    · obtain ⟨e, _, _, rfl, _⟩ := (hmem t).1 ht
      exact fun c hc => known_of_mem_owed hp h.known_sumFor hc
  · intro t
    rw [List.mem_append, h.sent_iff, hmem]
    constructor
    · intro hx
      rcases hx with ⟨w, hw, hsends⟩ | hsends
      · have hw' : w ∈ taken ++ [v] := List.mem_append_left _ hw
        exact ⟨w, hw', by rwa [hfinal w hw']⟩
      · have hv : v ∈ taken ++ [v] := List.mem_append_right _ (List.mem_singleton_self v)
        exact ⟨v, hv, by rwa [hfinal v hv]⟩
    · intro hx
      obtain ⟨w, hw, hsends⟩ := hx
      rw [hfinal w hw] at hsends
      rcases List.mem_append.1 hw with hw | hw
      · exact .inl ⟨w, hw, hsends⟩
      · rw [List.mem_singleton.1 hw] at hsends
        exact .inr hsends

theorem Progress.sendAll (hp : p.Lawful) {done : List PackageKey} (h : p.Progress g taken sent)
    (horder : DependencyGraph.DependentsFirst g.edges done vs)
    (hdone : ∀ k, k ∈ done → k ∈ taken.map PackageId.key)
    (hnodup : ((taken ++ vs).map PackageId.key).Nodup) :
    ∃ all, p.sendAll g sent vs = .ok all ∧ p.Progress g (taken ++ vs) all := by
  -- By induction on what is left to take; `Progress` is the invariant of what was taken.
  induction vs generalizing taken sent done with
  | nil => exact ⟨sent, rfl, by rwa [List.append_nil]⟩
  | cons v vs ih =>
    obtain ⟨hwait, hrest⟩ := horder
    have hnew : v.key ∉ taken.map PackageId.key := by
      rw [List.map_append, List.nodup_append] at hnodup
      exact fun hmem => hnodup.2.2 _ hmem _ (List.mem_cons_self ..) rfl
    obtain ⟨more, hmore, hstep⟩ := h.step hp (fun e he hchild => hdone _ (hwait e he hchild)) hnew
    have hdone' : ∀ k, k ∈ v.key :: done → k ∈ (taken ++ [v]).map PackageId.key := by
      intro k hk
      rw [List.map_append, List.mem_append]
      rcases List.mem_cons.1 hk with rfl | hk
      · exact .inr (List.mem_singleton_self _)
      · exact .inl (hdone k hk)
    rw [List.append_cons] at hnodup ⊢
    obtain ⟨all, hall, hprogress⟩ := ih hstep hrest hdone' hnodup
    refine ⟨all, ?_, hprogress⟩
    rw [Propagator.sendAll, hmore]
    exact hall

theorem progress_nil : p.Progress g [] [] :=
  ⟨fun _ _ h => absurd h List.not_mem_nil, fun _ h => absurd h List.not_mem_nil, fun t => by simp⟩

/-- Once a dependents-first order of all packages is found, propagation cannot fail. -/
theorem propagate_of_topological (hp : p.Lawful) (h : g.topological = .ok order) :
    ∃ r, p.propagate g = .ok r ∧ r.order = order ∧ p.Progress g order r.sent := by
  obtain ⟨rfl, _⟩ := DependencyGraph.topological_eq_ok h
  obtain ⟨sent, hsent, hprogress⟩ := progress_nil.sendAll hp g.dependentsFirst_order
    (fun k hk => absurd hk List.not_mem_nil) g.nodup_order
  refine ⟨⟨g.order, sent⟩, ?_, rfl, hprogress⟩
  have hlift : liftCriteria (p.sendAll g [] g.order) = .ok sent := by
    rw [hsent]
    rfl
  rw [propagate, h, ok_bind, hlift]
  rfl

theorem exists_propagate (hp : p.Lawful) (hg : g.Acyclic) : ∃ r, p.propagate g = .ok r := by
  have horder := DependencyGraph.topological_of_acyclic hg
  obtain ⟨r, hr, _⟩ := propagate_of_topological hp horder
  exact ⟨r, hr⟩

theorem progress_of_propagate (hp : p.Lawful) {r : Requirements} (h : p.propagate g = .ok r) :
    g.topological = .ok r.order ∧ p.Progress g r.order r.sent := by
  obtain ⟨order, horder, _⟩ := bind_eq_ok h
  obtain ⟨r', hr', rfl, hprogress⟩ := propagate_of_topological hp horder
  rw [h] at hr'
  cases hr'
  exact ⟨horder, hprogress⟩

end Propagator

end Vetting
