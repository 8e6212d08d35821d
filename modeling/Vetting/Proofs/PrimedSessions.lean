import Vetting.Dependency.Graph
import Vetting.Proofs.SessionMemory

/-! What a session knows. It never forgets a version, it knows those whose satisfied sets it keeps,
and it keeps those of the packages that it was primed with. -/

namespace Vetting

namespace Session

variable {model : CriteriaModel} {store : AuditStore model} {mode : ExemptionMode}
  {g : DependencyGraph} {s : Session store} {id : PackageId} {ids : List PackageId}
  {package : String} {key : PackageKey} {calls : List Call}

/-- What holds of a session as it goes on: it knows the versions whose satisfied sets it keeps. -/
def Settled [SetOrder] (s : Session store) : Prop :=
  ∀ e ∈ s.memo, (s.graph e.1.package).has e.1.release = true

/-- Whether a session knows all the versions that another one does. -/
def Extends [SetOrder] (t s : Session store) : Prop :=
  ∀ package r, (s.graph package).has r = true → (t.graph package).has r = true

theorem extends_of_askedOf [SetOrder] {t : Session store}
    (h : ∀ package, ∀ v ∈ s.askedOf package, v ∈ t.askedOf package) : t.Extends s := by
  intro package r hr
  rw [has_graph_iff, AuditGraph.mem_map_known] at hr ⊢
  refine hr.imp_right fun hasked => ?_
  obtain ⟨v, hv, rfl⟩ := List.mem_map.1 hasked
  exact List.mem_map_of_mem (h package v hv)

theorem extends_grow [SetOrder] {package : String} {v : Version} :
    (s.grow package v).Extends s := by
  refine extends_of_askedOf fun p w hw => ?_
  unfold grow
  split
  · exact hw
  · rw [askedOf_insert]
    split
    · next hp => exact List.mem_append_left _ (hp ▸ hw)
    · exact hw

theorem Settled.grow [SetOrder] (h : s.Settled) {package : String} {v : Version} :
    (s.grow package v).Settled := fun e he =>
  extends_grow _ _ (h e (memo_grow ▸ he))

theorem Settled.satisfied [SetOrder] (h : s.Settled) : (s.satisfied id).2.Settled := by
  unfold Session.satisfied
  split
  · exact h
  · intro e he
    rcases List.mem_append.1 he with he | he
    · exact h.grow e he
    · obtain rfl := List.mem_singleton.1 he
      exact has_graph_iff.2 mem_known_grow

theorem Settled.resolve [SetOrder] (h : s.Settled) {c : String} : (s.resolve id c).2.Settled := by
  unfold Session.resolve
  dsimp only
  split
  · exact h.grow
  · exact h

theorem extends_primePackage [SetOrder] {package : String} {ids : List PackageId} :
    (s.primePackage package ids).Extends s := by
  unfold primePackage
  split
  · exact fun _ _ h => h
  · refine extends_of_askedOf fun p v hv => ?_
    change v ∈ ({ s with asked := s.asked.insert package _ } : Session store).askedOf p
    rw [askedOf_insert]
    split
    · next hp => exact List.mem_append_right _ (hp ▸ hv)
    · exact hv

theorem Settled.primePackage [SetOrder] (h : s.Settled) (hids : ∀ id ∈ ids, id.package = package) :
    (s.primePackage package ids).Settled := by
  have hextends : (s.primePackage package ids).Extends s := extends_primePackage
  unfold Session.primePackage at hextends ⊢
  split at hextends
  · next hall =>
    rw [if_pos hall]
    exact h
  · next hall =>
    rw [if_neg hall]
    intro e he
    rcases List.mem_append.1 he with hold | hnew
    · exact hextends _ _ (h e hold)
    · obtain ⟨id, hid, rfl⟩ := List.mem_map.1 hnew
      obtain rfl := hids id hid
      rw [has_graph_iff]
      change _ ∈ (AuditGraph.known store id.package (({ s with
        asked := s.asked.insert id.package _ } : Session store).askedOf id.package)).map _
      rw [askedOf_insert, if_pos rfl]
      refine AuditGraph.mem_map_known.2 (.inr (List.mem_map_of_mem ?_))
      exact List.mem_append_left _ (List.mem_map_of_mem hid)

theorem Settled.prime [SetOrder] (h : s.Settled) : (s.prime ids).Settled :=
  prime_invariant h fun _ _ _ ht hpart => ht.primePackage fun id hid => (hpart id hid).2

/-- Whether a session keeps the satisfied set of a version. -/
def Remembers (s : Session store) (key : PackageKey) : Prop := key ∈ s.memo.map Prod.fst

theorem Remembers.satisfied_eq [SetOrder] (h : s.Remembers id.key) : (s.satisfied id).2 = s := by
  obtain ⟨⟨_, names⟩, he, rfl⟩ := List.mem_map.1 h
  have hfound : (s.remembered? id.key).isSome = true := by
    rw [remembered?, List.lookup_isSome_iff]
    exact ⟨_, he, by simp⟩
  unfold satisfied
  split
  · rfl
  · next hnone =>
    rw [hnone] at hfound
    cases hfound

theorem Remembers.primePackage [SetOrder] (h : s.Remembers key) :
    (s.primePackage package ids).Remembers key := by
  unfold Session.primePackage
  split
  · exact h
  · rw [Remembers, List.map_append]
    exact List.mem_append_left _ h

theorem remembers_primePackage [SetOrder] (hid : id ∈ ids) :
    (s.primePackage package ids).Remembers id.key := by
  unfold primePackage
  split
  · next hall =>
    obtain ⟨names, hnames⟩ := Option.isSome_iff_exists.1 (List.all_eq_true.1 hall id hid)
    obtain ⟨before, after, hmemo, _⟩ := List.lookup_eq_some_iff.1 hnames
    simp [Remembers, hmemo]
  · rw [Remembers, List.map_append, List.map_map]
    exact List.mem_append_right _ (List.mem_map_of_mem hid)

/-- Priming package after package: the satisfied sets of each are kept from then on. -/
theorem remembers_prime [SetOrder] (hid : id ∈ ids) : (s.prime ids).Remembers id.key := by
  -- Of the names of one version only the first is asked for, but the version is the same.
  obtain ⟨same, hsame, hkey⟩ : ∃ same ∈ distinctOn PackageId.key ids, same.key = id.key :=
    exists_mem_distinctOn hid
  have hrun : ∀ (packages : List String) (t : Session store),
      t.Remembers same.key ∨ same.package ∈ packages → (packages.foldl (fun t p => t.primePackage p
        ((distinctOn PackageId.key ids).filter fun id => id.package = p)) t).Remembers same.key := by
    intro packages
    induction packages with
    | nil => exact fun t h => h.resolve_right List.not_mem_nil
    | cons p packages ih =>
      rintro t (hkept | hp)
      · exact ih _ (.inl hkept.primePackage)
      · rcases List.mem_cons.1 hp with rfl | hp
        · exact ih _ (.inl (remembers_primePackage
            (List.mem_filter.2 ⟨hsame, decide_eq_true rfl⟩)))
        · exact ih _ (.inr hp)
  rw [← hkey]
  refine hrun _ s (.inr ?_)
  exact NameSet.mem_toList.2 (NameSet.mem_ofList.2 (List.mem_map_of_mem hsame))

theorem Settled.perform [SetOrder] (h : s.Settled) (call : Call) : (s.perform call).2.Settled := by
  have hlearns : Learns call s (s.perform call).2 := learns_perform s call
  generalize (s.perform call).2 = t at hlearns
  cases hlearns with
  | nothing => exact h
  | grow => exact h.grow
  | satisfied => exact h.satisfied
  | resolve => exact h.resolve
  | prime => exact h.prime

theorem settled_start [SetOrder] : (start store mode).Settled := fun e he => by cases he

theorem Settled.after [SetOrder] (h : s.Settled) (calls : List Call) :
    (s.after calls).Settled := by
  induction calls generalizing s with
  | nil => exact h
  | cons call calls ih => exact ih (h.perform call)

/-- Whether a session has the third-party packages of a graph among the versions it knows. -/
def Knows [SetOrder] (s : Session store) (g : DependencyGraph) : Prop :=
  ∀ k ∈ g.thirdParty.map PackageId.key, (s.graph k.package).has k.release = true

/-- A session knows the packages of a graph when it was primed with them. -/
theorem Settled.knows_prime [SetOrder] (h : s.Settled) : (s.prime g.thirdParty).Knows g := by
  intro k hk
  obtain ⟨id, hid, rfl⟩ := List.mem_map.1 hk
  obtain ⟨e, he, hkey⟩ := List.mem_map.1 (remembers_prime (s := s) hid)
  exact hkey ▸ h.prime e he

end Session

end Vetting
