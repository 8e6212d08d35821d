import Vetting.Proofs.SortedEntries

/-! Sections of entries by package, sorted and with an entry more. For every package they hold the
records that they held, in their order, and the new one behind those of its package. -/

namespace Vetting

namespace Document

variable {β γ : Type} {read : String → Json.Members → String → Read β} {value : Json}
  {place name : String} {ms : Json.Members} {m : String × Json} {records : List β}

theorem objects?_eq_some_iff {items : List Json} {entries : List Json.Members} :
    objects? items = some entries ↔ items = entries.map .obj := by
  induction items generalizing entries with
  | nil =>
    rw [objects?, Option.some.injEq]
    exact ⟨fun h => h ▸ rfl, fun h => (List.map_eq_nil_iff.1 h.symm).symm⟩
  | cons v items ih =>
    cases v with
    | obj ms =>
      rw [objects?, Option.map_eq_some_iff]
      constructor
      · rintro ⟨rest, hrest, rfl⟩
        rw [ih.1 hrest, List.map_cons]
      · intro h
        cases entries with
        | nil => cases h
        | cons e entries =>
          obtain ⟨he, hrest⟩ := List.cons.inj h
          cases he
          exact ⟨entries, ih.2 hrest, rfl⟩
    | null => cases entries <;> simp [objects?]
    | bool => cases entries <;> simp [objects?]
    | int => cases entries <;> simp [objects?]
    | decimal => cases entries <;> simp [objects?]
    | str => cases entries <;> simp [objects?]
    | arr => cases entries <;> simp [objects?]

/-- Whether the members of a section are these; null stands for a section without any. -/
def IsSection (value : Json) (ms : Json.Members) : Prop := value = .obj ms ∨ value = .null ∧ ms = []

theorem IsSection.sorted (h : IsSection value ms) :
    IsSection value.sortMembers (Json.sortEach ms) := by
  rcases h with rfl | ⟨rfl, rfl⟩
  · exact .inl (Json.sortMembers_obj ms)
  · exact .inr ⟨by simp [Json.sortMembers], by simp [Json.sortEach]⟩

theorem IsSection.eachEntry_eq (h : IsSection value ms) :
    eachEntry value place read = eachEntry (.obj ms) place read := by
  rcases h with rfl | ⟨rfl, rfl⟩
  · rfl
  · rfl

theorem isSection_of_eachEntry (h : eachEntry value place read = .ok records) :
    ∃ ms, IsSection value ms := by
  cases value with
  | null => exact ⟨[], .inr ⟨rfl, rfl⟩⟩
  | obj ms => exact ⟨ms, .inl rfl⟩
  | bool => cases h
  | int => cases h
  | decimal => cases h
  | str => cases h
  | arr => cases h

/-- Whether the entries under a package make these things. -/
def Lists (makes : String → Json.Members → β → Prop) (m : String × Json) (made : List β) : Prop :=
  ∃ entries : List Json.Members, m.2 = .arr (entries.map .obj) ∧
    List.Forall₂ (makes m.1) entries made

theorem forall₂_of_indexed {α : Type} {read : Nat → α → Read β} {l : List α}
    (h : indexed read l = .ok records) :
    List.Forall₂ (fun a b => ∃ i, read i a = .ok b) l records := by
  have hall : List.Forall₂ (fun (c : α × Nat) b => read c.2 c.1 = .ok b) l.zipIdx records :=
    mapM_eq_ok_iff_forall₂.1 h
  have hmap : List.Forall₂ (fun a b => ∃ i, read i a = .ok b) (l.zipIdx.map Prod.fst) records :=
    List.forall₂_map_left_iff.2 (hall.imp fun c b hb => ⟨c.2, hb⟩)
  rwa [List.zipIdx_map_fst] at hmap

theorem indexed_of_forall₂ {α : Type} {read : Nat → α → Read β} {l : List α}
    (h : List.Forall₂ (fun a b => ∀ i, read i a = .ok b) l records) :
    indexed read l = .ok records := by
  rw [← List.zipIdx_map_fst 0 l, List.forall₂_map_left_iff] at h
  exact mapM_eq_ok_iff_forall₂.2 (h.imp fun c b hb => hb c.2)

theorem exists_lists_of_eachEntry [Inhabited β]
    (h : eachEntry (.obj ms) place read = .ok records) :
    ∃ g : String × Json → List β, records = ms.flatMap g ∧
      ∀ m ∈ ms, Lists (fun p e b => ∃ place, read p e place = .ok b) m (g m) := by
  obtain ⟨sections, hsections, h⟩ := bind_eq_ok h
  obtain ⟨made, hmade, h⟩ := bind_eq_ok h
  obtain ⟨f, rfl, hf⟩ := exists_map_of_mapM_eq_ok hsections
  obtain ⟨g, rfl, hg⟩ := exists_map_of_mapM_eq_ok hmade
  cases h
  refine ⟨g ∘ f, by rw [List.map_map]; rfl, fun m hm => ?_⟩
  have hentries := hf m hm
  have hread := hg (f m) (List.mem_map_of_mem hm)
  obtain ⟨package, value⟩ := m
  cases value with
  | arr items =>
    dsimp only at hentries
    split at hentries
    · next entries hobjects =>
      have hpair := Except.ok.inj hentries
      rw [← hpair] at hread
      refine ⟨entries, congrArg Json.arr (objects?_eq_some_iff.1 hobjects), ?_⟩
      rw [Function.comp, ← hpair]
      exact (forall₂_of_indexed hread).imp fun _ _ h => h.imp' _ fun _ h => h
    · cases hentries
  | null => cases hentries
  | bool => cases hentries
  | int => cases hentries
  | decimal => cases hentries
  | str => cases hentries
  | obj => cases hentries

theorem eachEntry_of_lists {l : List γ} {f : γ → String × Json} {g : γ → List β}
    (h : ∀ c ∈ l, Lists (fun p e b => ∀ place, read p e place = .ok b) (f c) (g c)) :
    eachEntry (.obj (l.map f)) place read = .ok (l.flatMap g) := by
  -- The entries of each package, by a choice that only matters within the list.
  choose! entries hvalue hentries using h
  have hsections : packageEntries (.obj (l.map f)) place =
      .ok (l.map fun c => ((f c).1, entries c)) := by
    refine mapM_eq_ok_iff_forall₂.2 ?_
    rw [List.forall₂_map_left_iff, List.forall₂_map_right_iff, List.forall₂_same]
    intro c hc
    have hc := hvalue c hc
    generalize f c = m at hc
    obtain ⟨package, value⟩ := m
    obtain rfl : value = .arr ((entries c).map .obj) := hc
    have hobjects : objects? ((entries c).map .obj) = some (entries c) :=
      objects?_eq_some_iff.2 rfl
    simp only [hobjects]
  have hmade : (l.map fun c => ((f c).1, entries c)).mapM (fun s =>
      indexed (fun i e => read s.1 e s!"{place}.{s.1}[{i}]") s.2) = .ok (l.map g) := by
    refine mapM_eq_ok_iff_forall₂.2 ?_
    rw [List.forall₂_map_left_iff, List.forall₂_map_right_iff, List.forall₂_same]
    intro c hc
    exact indexed_of_forall₂ ((hentries c hc).imp fun _ _ h i => h _)
  rw [eachEntry, hsections, ok_bind]
  show (_ >>= fun made : List (List β) => Except.ok made.flatten) = _
  rw [hmade, ok_bind]
  rfl

theorem mem_of_filter_name {l : Json.Members} (h : l.filter (fun m => decide (m.1 = name)) = [m]) :
    m ∈ l := by
  have hm : m ∈ l.filter fun m => decide (m.1 = name) := h ▸ List.mem_singleton_self m
  exact (List.mem_filter.1 hm).1

variable {makes : String → Json.Members → β → Prop} {g : String × Json → List β}
  {items : List Json} {entry : Json.Members} {b : β}

/-- What stands under a package makes the things that the section makes for it. -/
theorem lists_lookup (hnodup : (ms.map Prod.fst).Nodup) (hlists : ∀ m ∈ ms, Lists makes m (g m))
    (hitems : (ms.lookup name).getD (.arr []) = .arr items) :
    Lists makes (name, .arr items) ((ms.filter fun m => decide (m.1 = name)).flatMap g) := by
  have hfilter : ms.filter (fun m => decide (m.1 = name)) =
      (ms.lookup name).toList.map (Prod.mk name) := filter_name_of_nodup hnodup
  cases hlookup : ms.lookup name with
  | none =>
    rw [hlookup] at hfilter hitems
    obtain rfl : [] = items := Json.arr.inj hitems
    rw [hfilter]
    exact ⟨[], rfl, .nil⟩
  | some v =>
    rw [hlookup] at hfilter hitems
    obtain rfl : v = .arr items := hitems
    have hmem : (name, .arr items) ∈ ms := mem_of_filter_name hfilter
    rw [hfilter]
    show Lists makes _ ([(name, Json.arr items)].flatMap g)
    rw [List.flatMap_singleton]
    exact hlists _ hmem

theorem Lists.snoc {made : List β} (h : Lists makes (name, .arr items) made)
    (hmakes : makes name entry b) :
    Lists makes (name, .arr (items ++ [.obj entry])) (made ++ [b]) := by
  obtain ⟨entries, hvalue, hall⟩ := h
  obtain rfl : items = entries.map .obj := Json.arr.inj hvalue
  refine ⟨entries ++ [entry], by simp, ?_⟩
  exact List.rel_append hall (.cons hmakes .nil)

/-- A section with an entry more makes one thing more, behind those of its package. -/
theorem exists_lists_put (hnodup : (ms.map Prod.fst).Nodup)
    (hlists : ∀ m ∈ ms, Lists makes m (g m)) (hitems : (ms.lookup name).getD (.arr []) = .arr items)
    (hmakes : makes name entry b) :
    ∃ g' : String × Json → List β,
      (∀ m ∈ ms.put name (.arr (items ++ [.obj entry])), Lists makes m (g' m)) ∧
      ∀ p, ((ms.put name (.arr (items ++ [.obj entry]))).filter fun m =>
          decide (m.1 = p)).flatMap g' =
        (ms.filter fun m => decide (m.1 = p)).flatMap g ++ if p = name then [b] else [] := by
  have hput : (ms.put name (.arr (items ++ [.obj entry]))).filter (fun m => decide (m.1 = name)) =
      [(name, .arr (items ++ [.obj entry]))] := by
    rw [filter_name_of_nodup (Json.nodup_put hnodup), Json.lookup_put, if_pos rfl]
    rfl
  refine ⟨fun m => if m.1 = name then
    (ms.filter fun m => decide (m.1 = name)).flatMap g ++ [b] else g m, ?_, ?_⟩
  · intro m hm
    by_cases hname : m.1 = name
    · have hkept : m ∈ (ms.put name (.arr (items ++ [.obj entry]))).filter
          fun m => decide (m.1 = name) := List.mem_filter.2 ⟨hm, decide_eq_true hname⟩
      rw [hput] at hkept
      obtain rfl := List.mem_singleton.1 hkept
      beta_reduce
      rw [if_pos rfl]
      exact (lists_lookup hnodup hlists hitems).snoc hmakes
    · have hkept : m ∈ (ms.put name (.arr (items ++ [.obj entry]))).filter
          fun n => decide (n.1 = m.1) := List.mem_filter.2 ⟨hm, decide_eq_true rfl⟩
      rw [Json.filter_put_of_ne hname] at hkept
      beta_reduce
      rw [if_neg hname]
      exact hlists m (List.mem_filter.1 hkept).1
  · intro p
    by_cases hp : p = name
    · rw [hp, hput, List.flatMap_singleton, if_pos rfl, if_pos rfl]
    · rw [Json.filter_put_of_ne hp, if_neg hp, List.append_nil]
      refine List.flatMap_congr fun m hm => if_neg fun hname => hp ?_
      exact (of_decide_eq_true (List.mem_filter.1 hm).2).symm.trans hname

end Document

/-- The records of a package, in the order in which they came. -/
def recordsOf (package : String) (records : List AuditRecord) : List AuditRecord :=
  records.filter fun r => decide (r.package = package)

section RecordsOf

variable {package : String} {records more : List AuditRecord} {r : AuditRecord}
  {ms : Json.Members} {g : String × Json → List AuditRecord}

theorem recordsOf_append :
    recordsOf package (records ++ more) = recordsOf package records ++ recordsOf package more :=
  List.filter_append ..

theorem recordsOf_cons : recordsOf package (r :: records) =
    if r.package = package then r :: recordsOf package records else recordsOf package records := by
  rw [recordsOf, List.filter_cons]
  simp only [decide_eq_true_eq]
  rfl

theorem recordsOf_flatMap (h : ∀ m ∈ ms, ∀ r ∈ g m, r.package = m.1) :
    recordsOf package (ms.flatMap g) = (ms.filter fun m => decide (m.1 = package)).flatMap g := by
  induction ms with
  | nil => rfl
  | cons m ms ih =>
    obtain ⟨hfirst, hrest⟩ := List.forall_mem_cons.1 h
    rw [List.flatMap_cons, recordsOf_append, ih hrest, recordsOf]
    by_cases hm : m.1 = package
    · rw [List.filter_cons_of_pos (by simpa using hm), List.flatMap_cons,
        List.filter_eq_self.2 fun r hr => by simpa using (hfirst r hr).trans hm]
    · rw [List.filter_cons_of_neg (by simpa using hm), List.filter_eq_nil_iff.2 fun r hr =>
        by simpa [hfirst r hr] using hm, List.nil_append]

end RecordsOf

namespace Regard

open Document

/-- Whether records are the same for all that is regarded, package by package. -/
def Alike (k : Regard) (l m : List AuditRecord) : Prop :=
  ∀ package, (recordsOf package l).map k.record = (recordsOf package m).map k.record

section Alike

variable {k : Regard} {l l' m m' : List AuditRecord}

theorem Alike.refl (l : List AuditRecord) : k.Alike l l := fun _ => rfl

theorem Alike.append (h : k.Alike l m) (h' : k.Alike l' m') : k.Alike (l ++ l') (m ++ m') := by
  intro package
  rw [recordsOf_append, recordsOf_append, List.map_append, List.map_append, h, h']

end Alike

variable {k : Regard} {read : String → Json.Members → String → Read AuditRecord}
  {ms : Json.Members} {g : String × Json → List AuditRecord} {value : Json} {place : String}
  {records : List AuditRecord}

/-- Whether a reader makes records of the package that entries stand under, which stay what they
are for all that is regarded when the entries are sorted. -/
structure Steady (k : Regard) (read : String → Json.Members → String → Read AuditRecord) :
    Prop where
  package_eq : ∀ {p e place r}, read p e place = .ok r → r.package = p
  exists_sorted : ∀ {p e place r}, k.KeepsEntry e → read p e place = .ok r →
    ∃ r', (∀ place, read p (Json.sortEach e) place = .ok r') ∧ k.record r' = k.record r

theorem steady_auditEntry : k.Steady auditEntry := ⟨package_of_auditEntry, exists_auditEntry_sortEach⟩

theorem steady_grantEntry : k.Steady grantEntry := ⟨package_of_grantEntry, exists_grantEntry_sortEach⟩

/-- Whether what is regarded of a section stays the same when it is sorted. -/
def KeepsSection (k : Regard) (ms : Json.Members) : Prop :=
  ∀ m ∈ ms, ∀ items, m.2 = .arr items → ∀ e, .obj e ∈ items → k.KeepsEntry e

/-- Whether an entry makes a record, somewhere. -/
def Reads (read : String → Json.Members → String → Read AuditRecord) (package : String)
    (entry : Json.Members) (r : AuditRecord) : Prop := ∃ place, read package entry place = .ok r

theorem Steady.package_of_lists (hread : k.Steady read) {m : String × Json}
    (h : Lists (Reads read) m records) : ∀ r ∈ records, r.package = m.1 := by
  obtain ⟨entries, hvalue, hall⟩ := h
  clear hvalue
  induction hall with
  | nil => exact fun _ hr => absurd hr List.not_mem_nil
  | cons hfirst _ ih =>
    obtain ⟨_, hfirst⟩ := hfirst
    exact List.forall_mem_cons.2 ⟨hread.package_eq hfirst, ih⟩

theorem Steady.exists_sorted_lists (hread : k.Steady read) {m : String × Json}
    (hkeeps : ∀ items, m.2 = .arr items → ∀ e, .obj e ∈ items → k.KeepsEntry e)
    (h : Lists (Reads read) m records) :
    ∃ sorted, Lists (fun p e r => ∀ place, read p e place = .ok r) (Json.sortMember m) sorted ∧
      sorted.map k.record = records.map k.record := by
  obtain ⟨entries, hvalue, hall⟩ := h
  have hkept : ∀ e ∈ entries, k.KeepsEntry e := fun e he =>
    hkeeps _ hvalue e (List.mem_map_of_mem he)
  have hsorted : ∃ sorted, List.Forall₂ (fun e r => ∀ place, read m.1 e place = .ok r)
      (entries.map Json.sortEach) sorted ∧ sorted.map k.record = records.map k.record := by
    clear hvalue
    induction hall with
    | nil => exact ⟨[], .nil, rfl⟩
    | cons hfirst _ ih =>
      obtain ⟨hkeepsfirst, hkeepsrest⟩ := List.forall_mem_cons.1 hkept
      obtain ⟨_, hfirst⟩ := hfirst
      obtain ⟨r', hr', hsame⟩ := hread.exists_sorted hkeepsfirst hfirst
      obtain ⟨rest, hrest, hsamerest⟩ := ih hkeepsrest
      exact ⟨r' :: rest, .cons hr' hrest, by rw [List.map_cons, List.map_cons, hsame, hsamerest]⟩
  obtain ⟨sorted, hsorted, hsame⟩ := hsorted
  refine ⟨sorted, ⟨entries.map Json.sortEach, ?_, hsorted⟩, hsame⟩
  rw [Json.sortMember, hvalue, Json.sortMembers_arr, List.map_map, List.map_map]
  exact congrArg Json.arr (List.map_congr_left fun e _ => Json.sortMembers_obj e)

/-- A sorted section makes, for each package, the records that the section makes. -/
theorem Steady.exists_sorted_section (hread : k.Steady read) (hkeeps : k.KeepsSection ms)
    (hlists : ∀ m ∈ ms, Lists (Reads read) m (g m)) :
    ∃ sorted, (∀ place, eachEntry (.obj (Json.sortEach ms)) place read = .ok sorted) ∧
      k.Alike sorted (ms.flatMap g) := by
  have hsorted : ∀ m ∈ ms, ∃ sorted,
      Lists (fun p e r => ∀ place, read p e place = .ok r) (Json.sortMember m) sorted ∧
        sorted.map k.record = (g m).map k.record := fun m hm =>
    hread.exists_sorted_lists (hkeeps m hm) (hlists m hm)
  choose! g' hlists' hsame using hsorted
  refine ⟨(sortBy (fun a b => decide (a.1 < b.1)) ms).flatMap g', fun place => ?_, fun p => ?_⟩
  · rw [Json.sortEach_eq]
    exact eachEntry_of_lists fun m hm => hlists' m (mem_sortBy.1 hm)
  · have hpackage : ∀ m ∈ sortBy (fun a b => decide (a.1 < b.1)) ms, ∀ r ∈ g' m,
        r.package = m.1 := by
      intro m hm r hr
      have hm : m ∈ ms := mem_sortBy.1 hm
      have hmem : k.record r ∈ (g m).map k.record := hsame m hm ▸ List.mem_map_of_mem hr
      obtain ⟨s, hs, hsr⟩ := List.mem_map.1 hmem
      rw [← package_record (k := k), ← hsr, package_record]
      exact hread.package_of_lists (hlists m hm) s hs
    rw [recordsOf_flatMap hpackage, filter_sortBy_key Prod.fst,
      recordsOf_flatMap fun m hm => hread.package_of_lists (hlists m hm), List.map_flatMap,
      List.map_flatMap]
    exact List.flatMap_congr fun m hm => hsame m (List.mem_filter.1 hm).1

end Regard

end Vetting
