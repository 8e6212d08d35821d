import Mathlib.Data.List.Induction
import Vetting.Document.Field
import Vetting.Proofs.Obligation

/-! Documents with the members of every object in order of their names. Sorting is stable, so what
is found under a name stays what it was, and so does all that stands under one name. -/

namespace Vetting

section Stable

variable {α : Type} {lt : α → α → Bool} {keep : α → Bool} {a : α} {l m : List α} {key : α → String}

theorem filter_insertBy (h : keep a = true → ∀ b ∈ l, keep b = true → lt b a = false) :
    (insertBy lt a l).filter keep = (a :: l).filter keep := by
  induction l with
  | nil => rfl
  | cons b bs ih =>
    rw [insertBy]
    split
    · next hlt =>
      have hrest := ih fun ha c hc => h ha c (List.mem_cons_of_mem _ hc)
      rw [List.filter_cons, hrest]
      by_cases ha : keep a = true
      · have hb : keep b ≠ true := by
          intro hb
          have hnot := h ha b List.mem_cons_self hb
          rw [hlt] at hnot
          cases hnot
        rw [if_neg hb, List.filter_cons_of_pos ha, List.filter_cons_of_pos ha,
          List.filter_cons_of_neg hb]
      · rw [List.filter_cons_of_neg ha, List.filter_cons_of_neg ha, List.filter_cons]
    · rfl

/-- Elements of which none precedes another stay in the order they came in. -/
theorem filter_sortBy (h : ∀ a ∈ l, ∀ b ∈ l, keep a = true → keep b = true → lt b a = false) :
    (sortBy lt l).filter keep = l.filter keep := by
  induction l with
  | nil => rfl
  | cons a as ih =>
    have hrest : (sortBy lt as).filter keep = as.filter keep := ih fun b hb c hc =>
      h b (List.mem_cons_of_mem _ hb) c (List.mem_cons_of_mem _ hc)
    rw [sortBy, filter_insertBy, List.filter_cons, hrest, ← List.filter_cons]
    intro ha b hb
    exact h a List.mem_cons_self b (List.mem_cons_of_mem _ (mem_sortBy.1 hb)) ha

theorem filter_sortBy_key (key : α → String) (l : List α) (k : String) :
    (sortBy (fun a b => decide (key a < key b)) l).filter (fun a => decide (key a = k)) =
      l.filter fun a => decide (key a = k) := by
  refine filter_sortBy fun a _ b _ ha hb => ?_
  rw [of_decide_eq_true ha, of_decide_eq_true hb]
  exact decide_eq_false (String.lt_irrefl k)

theorem pairwise_sortBy_key (key : α → String) (l : List α) :
    (sortBy (fun a b => decide (key a < key b)) l).Pairwise fun a b => key a ≤ key b := by
  have hsorted : (sortBy (fun a b => decide (key a < key b)) l).Pairwise
      fun a b => decide (key b < key a) = false := by
    refine pairwise_sortBy ?_ ?_ l
    · exact fun a b h => decide_eq_false (String.lt_asymm (of_decide_eq_true h))
    · intro a b c hba hcb
      have hab : key a ≤ key b := String.not_lt.1 (of_decide_eq_false hba)
      have hbc : key b ≤ key c := String.not_lt.1 (of_decide_eq_false hcb)
      exact decide_eq_false (String.not_lt.2 (String.le_trans hab hbc))
  exact hsorted.imp fun h => String.not_lt.1 (of_decide_eq_false h)

theorem mem_of_filter_key_eq
    (h : ∀ k, l.filter (fun a => decide (key a = k)) = m.filter fun a => decide (key a = k))
    (ha : a ∈ l) : a ∈ m := by
  have hkept : a ∈ l.filter fun b => decide (key b = key a) :=
    List.mem_filter.2 ⟨ha, decide_eq_true rfl⟩
  rw [h] at hkept
  exact (List.mem_filter.1 hkept).1

/-- Lists in order of a key that hold the same of every key are the same. -/
theorem eq_of_filter_key_eq (hl : l.Pairwise fun a b => key a ≤ key b)
    (hm : m.Pairwise fun a b => key a ≤ key b)
    (h : ∀ k, l.filter (fun a => decide (key a = k)) = m.filter fun a => decide (key a = k)) :
    l = m := by
  induction l generalizing m with
  | nil =>
    cases m with
    | nil => rfl
    | cons b bs =>
      have hb : b ∈ [] := mem_of_filter_key_eq (fun k => (h k).symm) List.mem_cons_self
      cases hb
  | cons a as ih =>
    cases m with
    | nil =>
      have ha : a ∈ [] := mem_of_filter_key_eq h List.mem_cons_self
      cases ha
    | cons b bs =>
      have ha : a ∈ b :: bs := mem_of_filter_key_eq h List.mem_cons_self
      have hb : b ∈ a :: as := mem_of_filter_key_eq (fun k => (h k).symm) List.mem_cons_self
      obtain ⟨hfirst, hrest⟩ := List.pairwise_cons.1 hl
      obtain ⟨hfirst', hrest'⟩ := List.pairwise_cons.1 hm
      -- Each first element has the least key of both lists.
      have hkey : key a = key b := by
        apply String.le_antisymm
        · rcases List.mem_cons.1 hb with rfl | hb
          · exact String.le_refl _
          · exact hfirst b hb
        · rcases List.mem_cons.1 ha with rfl | ha
          · exact String.le_refl _
          · exact hfirst' a ha
      have hhead := h (key a)
      rw [List.filter_cons_of_pos (by simp), List.filter_cons_of_pos (by simp [hkey])] at hhead
      obtain ⟨rfl, _⟩ := List.cons.inj hhead
      have htail : ∀ k, as.filter (fun a => decide (key a = k)) =
          bs.filter fun a => decide (key a = k) := by
        intro k
        have hk := h k
        by_cases hak : key a = k
        · rw [List.filter_cons_of_pos (by simp [hak]), List.filter_cons_of_pos (by simp [hak])] at hk
          exact (List.cons.inj hk).2
        · rwa [List.filter_cons_of_neg (by simp [hak]), List.filter_cons_of_neg (by simp [hak])] at hk
      rw [ih hrest hrest' htail]

/-- Where each key occurs once, an element is found under its own. -/
theorem find?_key_eq_some_iff {k : String} (h : (l.map key).Nodup) :
    l.find? (fun b => decide (key b = k)) = some a ↔ a ∈ l ∧ key a = k := by
  constructor
  · intro hfind
    have hkey := List.find?_some hfind
    exact ⟨List.mem_of_find?_eq_some hfind, of_decide_eq_true hkey⟩
  · rintro ⟨ha, rfl⟩
    induction l with
    | nil => cases ha
    | cons b bs ih =>
      obtain ⟨hkey, hnodup⟩ := List.nodup_cons.1 h
      rcases List.mem_cons.1 ha with rfl | ha
      · simp
      · have hne : key b ≠ key a := fun heq => hkey (heq ▸ List.mem_map_of_mem ha)
        rw [List.find?_cons_of_neg (by simpa using hne)]
        exact ih hnodup ha

end Stable

namespace Json

variable {name other : String} {v w : Json} {ms : Members}

/-- A member with all that it holds sorted. -/
def sortMember (m : String × Json) : String × Json := (m.1, m.2.sortMembers)

theorem place_eq : place name v ms = insertBy (fun a b => decide (a.1 < b.1)) (name, v) ms := by
  induction ms with
  | nil => rfl
  | cons m ms ih =>
    obtain ⟨n, w⟩ := m
    rw [place, insertBy, ih]
    simp only [decide_eq_true_eq]

theorem sortEach_eq (ms : Members) :
    sortEach ms = (sortBy (fun a b => decide (a.1 < b.1)) ms).map sortMember := by
  have hmap : (sortBy (fun a b => decide (a.1 < b.1)) ms).map sortMember =
      sortBy (fun a b => decide (a.1 < b.1)) (ms.map sortMember) :=
    map_sortBy sortMember (fun a b => decide (a.1 < b.1)) ms
  rw [hmap]
  clear hmap
  induction ms with
  | nil => rw [sortEach, List.map_nil, sortBy]
  | cons m ms ih =>
    obtain ⟨n, v⟩ := m
    rw [sortEach, ih, place_eq]
    rfl

theorem sortItems_eq (items : List Json) : sortItems items = items.map sortMembers := by
  induction items with
  | nil => rw [sortItems, List.map_nil]
  | cons v items ih => rw [sortItems, ih, List.map_cons]

theorem sortMembers_arr (items : List Json) :
    (arr items).sortMembers = arr (items.map sortMembers) := by
  rw [sortMembers, sortItems_eq]

theorem sortMembers_obj (ms : Members) : (obj ms).sortMembers = obj (sortEach ms) := by
  rw [sortMembers]

mutual

theorem sortMembers_sortMembers : ∀ v : Json, v.sortMembers.sortMembers = v.sortMembers
  | .null => by simp [sortMembers]
  | .bool _ => by simp [sortMembers]
  | .int _ => by simp [sortMembers]
  | .decimal _ _ => by simp [sortMembers]
  | .str _ => by simp [sortMembers]
  | .arr items => by
    rw [sortMembers_arr, sortMembers_arr, List.map_map]
    exact congrArg arr (List.map_congr_left (sortItem_sortItem items))
  | .obj ms => by
    -- What is sorted already is sorted once more to itself.
    have hsorted : sortBy (fun a b => decide (a.1 < b.1)) (sortEach ms) = sortEach ms := by
      refine sortBy_eq_self ?_
      rw [sortEach_eq, List.pairwise_map]
      exact (pairwise_sortBy_key Prod.fst ms).imp fun h => decide_eq_false (String.not_lt.2 h)
    rw [sortMembers_obj, sortMembers_obj, sortEach_eq (sortEach ms), hsorted, sortEach_eq,
      List.map_map]
    refine congrArg obj (List.map_congr_left fun m hm => ?_)
    exact sortMember_sortMember ms m (mem_sortBy.1 hm)

theorem sortItem_sortItem : ∀ items : List Json,
    ∀ v ∈ items, (sortMembers ∘ sortMembers) v = v.sortMembers
  | [] => fun _ hv => absurd hv List.not_mem_nil
  | v :: items => List.forall_mem_cons.2
      ⟨sortMembers_sortMembers v, sortItem_sortItem items⟩

theorem sortMember_sortMember : ∀ ms : Members, ∀ m ∈ ms, sortMember (sortMember m) = sortMember m
  | [] => fun _ hm => absurd hm List.not_mem_nil
  | (name, v) :: ms => List.forall_mem_cons.2
      ⟨congrArg (Prod.mk name) (sortMembers_sortMembers v), sortMember_sortMember ms⟩

end

theorem lookup_sortEach : (sortEach ms).lookup name = (ms.lookup name).map sortMembers := by
  induction ms with
  | nil => rfl
  | cons m ms ih =>
    obtain ⟨n, v⟩ := m
    have hplace : ∀ l : Members, (place n v.sortMembers l).lookup name =
        if name = n then some v.sortMembers else l.lookup name := by
      intro l
      induction l with
      | nil => exact NameMap.lookup_cons_eq ..
      | cons e l ih =>
        obtain ⟨k, w⟩ := e
        rw [place]
        split
        · next hlt =>
          rw [NameMap.lookup_cons_eq, ih, NameMap.lookup_cons_eq]
          by_cases hn : name = n
          · have hk : name ≠ k := by
              rintro rfl
              exact String.lt_irrefl n (hn ▸ hlt)
            rw [if_neg hk, if_pos hn, if_pos hn]
          · rw [if_neg hn, if_neg hn]
        · exact NameMap.lookup_cons_eq ..
    rw [sortEach, hplace, ih, NameMap.lookup_cons_eq]
    split
    · rfl
    · rfl

theorem isGiven_sortMembers (v : Json) : v.sortMembers.isGiven = v.isGiven := by
  cases v with
  | arr items =>
    rw [sortMembers_arr, isGiven, isGiven]
    cases items with
    | nil => rfl
    | cons => rfl
  | obj ms =>
    have hlength : (sortEach ms).length = ms.length := by simp [sortEach_eq]
    rw [sortMembers_obj, isGiven, isGiven]
    cases ms with
    | nil => rfl
    | cons m ms =>
      cases hsorted : sortEach (m :: ms) with
      | nil =>
        rw [hsorted] at hlength
        cases hlength
      | cons => rfl
  | null => simp [sortMembers]
  | bool => simp [sortMembers]
  | int => simp [sortMembers]
  | decimal => simp [sortMembers]
  | str => simp [sortMembers]

theorem orElse_sortMembers (hw : w.sortMembers = w) :
    v.sortMembers.orElse w = (v.orElse w).sortMembers := by
  rw [orElse, orElse, isGiven_sortMembers]
  split
  · rfl
  · exact hw.symm

theorem lookup_put : (ms.put name v).lookup other =
    if other = name then some v else ms.lookup other := by
  induction ms with
  | nil => exact NameMap.lookup_cons_eq ..
  | cons m ms ih =>
    obtain ⟨n, w⟩ := m
    rw [Members.put]
    split
    · next hn =>
      rw [hn, NameMap.lookup_cons_eq, NameMap.lookup_cons_eq]
      split
      · rfl
      · rfl
    · next hn =>
      rw [NameMap.lookup_cons_eq, ih, NameMap.lookup_cons_eq]
      by_cases ho : other = name
      · rw [if_pos ho, if_neg fun hother => hn (hother.symm.trans ho), if_pos ho]
      · rw [if_neg ho, if_neg ho]

theorem filter_put_of_ne (hne : other ≠ name) :
    (ms.put name v).filter (fun m => decide (m.1 = other)) =
      ms.filter fun m => decide (m.1 = other) := by
  induction ms with
  | nil => exact List.filter_cons_of_neg (by simpa using hne.symm)
  | cons m ms ih =>
    obtain ⟨n, w⟩ := m
    rw [Members.put]
    split
    · next hn =>
      have hno : ¬n = other := fun h => hne (h.symm.trans hn)
      rw [List.filter_cons_of_neg (by simpa using hno), List.filter_cons_of_neg (by simpa using hno)]
    · rw [List.filter_cons, ih, List.filter_cons]

theorem map_fst_put : (ms.put name v).map Prod.fst =
    if name ∈ ms.map Prod.fst then ms.map Prod.fst else ms.map Prod.fst ++ [name] := by
  induction ms with
  | nil => rfl
  | cons m ms ih =>
    obtain ⟨n, w⟩ := m
    rw [Members.put]
    split
    · next hn => rw [hn, List.map_cons, List.map_cons, if_pos List.mem_cons_self]
    · next hn =>
      rw [List.map_cons, ih, List.map_cons]
      by_cases hmem : name ∈ ms.map Prod.fst
      · rw [if_pos hmem, if_pos (List.mem_cons_of_mem _ hmem)]
      · rw [if_neg hmem, if_neg fun h => (List.mem_cons.1 h).elim (fun h => hn h.symm) hmem]
        rfl

theorem nodup_put (h : (ms.map Prod.fst).Nodup) : ((ms.put name v).map Prod.fst).Nodup := by
  rw [map_fst_put]
  split
  · exact h
  · next hfresh => exact List.nodup_append.2 ⟨h, List.pairwise_singleton _ _, fun a ha b hb hab =>
      hfresh (List.mem_singleton.1 hb ▸ hab ▸ ha)⟩

end Json

section Names

variable {α : Type} {name other : String} {v : α} {l : List (String × α)}

/-- Under a name that occurs once stands what is found under it. -/
theorem filter_name_of_nodup (h : (l.map Prod.fst).Nodup) :
    l.filter (fun m => decide (m.1 = name)) = (l.lookup name).toList.map (Prod.mk name) := by
  induction l with
  | nil => rfl
  | cons m l ih =>
    obtain ⟨n, v⟩ := m
    rw [List.map_cons, List.nodup_cons] at h
    obtain ⟨hfresh, hrest⟩ := h
    rw [NameMap.lookup_cons_eq]
    by_cases hn : n = name
    · have hnone : l.filter (fun m => decide (m.1 = name)) = [] := by
        rw [List.filter_eq_nil_iff]
        intro m hm heq
        rw [hn] at hfresh
        exact hfresh (List.mem_map.2 ⟨m, hm, of_decide_eq_true heq⟩)
      rw [List.filter_cons_of_pos (by simp [hn]), hnone, if_pos hn.symm, hn]
      rfl
    · rw [List.filter_cons_of_neg (by simp [hn]), if_neg (fun h => hn h.symm), ih hrest]

theorem NameMap.nodup_entries (m : NameMap α) : (m.entries.map Prod.fst).Nodup := by
  rw [List.Nodup, List.pairwise_map]
  refine m.ascending.imp fun hlt heq => ?_
  rw [heq] at hlt
  exact String.lt_irrefl _ hlt

theorem NameMap.eq_of_get?_eq {m n : NameMap α} (h : ∀ name, m.get? name = n.get? name) :
    m = n := by
  have hordered : ∀ m : NameMap α, m.entries.Pairwise fun a b => a.1 ≤ b.1 :=
    fun m => m.ascending.imp fun hlt => String.not_lt.1 (String.lt_asymm hlt)
  have hentries : m.entries = n.entries := by
    refine eq_of_filter_key_eq (hordered m) (hordered n) fun name => ?_
    have hname : m.entries.lookup name = n.entries.lookup name := h name
    rw [filter_name_of_nodup m.nodup_entries, filter_name_of_nodup n.nodup_entries, hname]
  cases m
  cases n
  cases hentries
  rfl

theorem NameMap.get?_ofList : (NameMap.ofList l).get? name =
    ((l.filter fun m => decide (m.1 = name)).getLast?).map Prod.snd := by
  induction l using List.reverseRecOn with
  | nil => rfl
  | append_singleton l m ih =>
    have hlast : NameMap.ofList (l ++ [m]) = (NameMap.ofList l).insert m.1 m.2 := by
      rw [NameMap.ofList, List.foldl_append]
      rfl
    rw [hlast, NameMap.get?_insert, ih, List.filter_append]
    by_cases hm : m.1 = name
    · rw [if_pos hm.symm, List.filter_cons_of_pos (by simp [hm])]
      simp
    · rw [if_neg fun h => hm h.symm, List.filter_cons_of_neg (by simp [hm])]
      simp

/-- A map is made of its own entries. -/
theorem NameMap.ofList_entries (m : NameMap α) : NameMap.ofList m.entries = m := by
  refine NameMap.eq_of_get?_eq fun name => ?_
  have hname : m.get? name = m.entries.lookup name := rfl
  rw [NameMap.get?_ofList, filter_name_of_nodup m.nodup_entries, hname]
  cases m.entries.lookup name with
  | none => rfl
  | some v => rfl

/-- The map of some entries does not depend on the order of their names. -/
theorem NameMap.ofList_map_sortBy {β : Type} {ms : List (String × β)} {g : String × β → String × α}
    (h : ∀ m ∈ ms, (g m).1 = m.1) :
    NameMap.ofList ((sortBy (fun a b => decide (a.1 < b.1)) ms).map g) = NameMap.ofList (ms.map g) := by
  refine NameMap.eq_of_get?_eq fun name => ?_
  have hkept : ∀ l : List (String × β), (∀ m ∈ l, m ∈ ms) →
      (l.map g).filter (fun e => decide (e.1 = name)) =
        (l.filter fun m => decide (m.1 = name)).map g := by
    intro l hl
    rw [List.filter_map]
    refine congrArg (List.map g) (List.filter_congr fun m hm => ?_)
    rw [Function.comp, h m (hl m hm)]
  rw [NameMap.get?_ofList, NameMap.get?_ofList, hkept _ fun m hm => mem_sortBy.1 hm,
    hkept _ fun m hm => hm, filter_sortBy_key Prod.fst]

end Names

end Vetting
