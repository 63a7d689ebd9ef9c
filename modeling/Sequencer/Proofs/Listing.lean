import Sequencer.Listing

set_option autoImplicit false

/-!
# Entries of listings

Looking up a name gives the value of its only entry.
-/

namespace Sequencer

namespace Listing

variable {α : Type}

theorem get?_eq_some_iff (l : Listing α) (k : String) (v : α) : l.get? k = some v ↔ (k, v) ∈ l.entries := by
  obtain ⟨es, hes⟩ := l
  change (es.find? (·.1 == k)).map Prod.snd = some v ↔ (k, v) ∈ es
  induction es with
  | nil => simp
  | cons e es ih =>
    obtain ⟨hne, hes⟩ := List.nodup_cons.1 hes
    by_cases hk : e.1 = k
    · have hnot : (k, v) ∉ es := by
        intro hmem
        exact hne (hk ▸ List.mem_map_of_mem (f := Prod.fst) hmem)
      rw [List.find?_cons_of_pos (by simpa using hk)]
      simp only [Option.map_some, Option.some.injEq, List.mem_cons, hnot, or_false]
      constructor
      · intro hv
        rw [← hk, ← hv]
      · intro hv
        rw [← hv]
    · have hnot : (k, v) ≠ e := fun h => hk (h ▸ rfl)
      rw [List.find?_cons_of_neg (by simpa using hk), ih hes]
      simp [hnot]

theorem mem_keys_iff {l : Listing α} {k : String} : k ∈ l.keys ↔ ∃ v, l.get? k = some v := by
  simp only [get?_eq_some_iff, keys, List.mem_map]
  constructor
  · rintro ⟨⟨_, v⟩, h, rfl⟩
    exact ⟨v, h⟩
  · rintro ⟨v, h⟩
    exact ⟨(k, v), h, rfl⟩

theorem get?_eq_none_iff {l : Listing α} {k : String} : l.get? k = none ↔ k ∉ l.keys := by
  rw [mem_keys_iff, Option.eq_none_iff_forall_ne_some, not_exists]

theorem exists_of_contains {l : Listing α} {k : String} (h : l.contains k = true) : ∃ v, l.get? k = some v := by
  rw [contains_iff_mem_keys] at h
  exact mem_keys_iff.1 h

theorem get?_filter (p : String → α → Bool) (l : Listing α) (k : String) :
    (l.filter p).get? k = (l.get? k).filter (p k) := by
  ext v
  rw [get?_eq_some_iff, entries_filter, List.mem_filter, Option.filter_eq_some_iff, get?_eq_some_iff]

/-- Of entries written one after the other, one for each name, each is found. -/
theorem get?_insertAll (l m : Listing α) (k : String) : (l.insertAll m.entries).get? k = (m.get? k).or (l.get? k) := by
  obtain ⟨es, hes⟩ := m
  change (l.insertAll es).get? k = ((es.find? (·.1 == k)).map Prod.snd).or (l.get? k)
  induction es generalizing l with
  | nil => rfl
  | cons e es ih =>
    obtain ⟨hne, hes⟩ := List.nodup_cons.1 hes
    change ((l.insert e.1 e.2).insertAll es).get? k = _
    rw [ih _ hes]
    by_cases hk : e.1 = k
    · have hnone : es.find? (·.1 == k) = none := by
        rw [List.find?_eq_none]
        intro x hx hxk
        exact hne (hk ▸ eq_of_beq hxk ▸ List.mem_map_of_mem hx)
      rw [hnone, ← hk, get?_insert_self, List.find?_cons_of_pos (by simp)]
      rfl
    · rw [get?_insert_of_ne _ _ fun h => hk h.symm, List.find?_cons_of_neg (by simpa using hk)]

theorem entries_insert_of_notMem {l : Listing α} {k : String} (h : k ∉ l.keys) (v : α) :
    (l.insert k v).entries = l.entries ++ [(k, v)] := by
  rw [entries_insert, List.filter_eq_self.2]
  intro e he
  simpa using fun hk : e.1 = k => h (hk ▸ List.mem_map_of_mem he)

/-- Writing the entries of a listing one after the other gives that listing. -/
theorem ofList_entries (l : Listing α) : ofList l.entries = l := by
  have hinsertAll : ∀ (es : List (String × α)) (acc : Listing α), (acc.keys ++ es.map Prod.fst).Nodup →
      (acc.insertAll es).entries = acc.entries ++ es := by
    intro es
    induction es with
    | nil => exact fun acc _ => (List.append_nil _).symm
    | cons e es ih =>
      intro acc hnodup
      have hfresh : e.1 ∉ acc.keys := fun hmem => (List.nodup_append.1 hnodup).2.2 _ hmem _ List.mem_cons_self rfl
      have hentries := entries_insert_of_notMem hfresh e.2
      have hkeys : (acc.insert e.1 e.2).keys = acc.keys ++ [e.1] := by rw [keys, hentries, List.map_append]; rfl
      have hrest := ih (acc.insert e.1 e.2) (by rw [hkeys, List.append_assoc]; exact hnodup)
      rw [hentries, List.append_assoc] at hrest
      exact hrest
  exact Listing.ext (hinsertAll l.entries .empty l.nodup)

theorem mem_entries_insertAll {l : Listing α} {es : List (String × α)} {e : String × α}
    (h : e ∈ (l.insertAll es).entries) : e ∈ l.entries ∨ e ∈ es := by
  induction es generalizing l with
  | nil => exact .inl h
  | cons x es ih =>
    rcases ih h with h | h
    · rw [entries_insert, List.mem_append] at h
      rcases h with h | h
      · exact .inl ((List.mem_filter.1 h).1)
      · exact .inr (by simp [List.mem_singleton.1 h])
    · exact .inr (List.mem_cons_of_mem _ h)

theorem mem_entries_ofList {es : List (String × α)} {e : String × α} (h : e ∈ (ofList es).entries) : e ∈ es := by
  rcases mem_entries_insertAll h with h | h
  · simp [empty] at h
  · exact h

theorem get?_ofList {es : List (String × α)} (h : (es.map Prod.fst).Nodup) {k : String} {v : α} :
    (ofList es).get? k = some v ↔ (k, v) ∈ es := by
  have hget := get?_insertAll empty ⟨es, h⟩ k
  rw [ofList, hget, show empty.get? k = (none : Option α) from rfl, Option.or_none, get?_eq_some_iff]

/-- Entries made from some elements of a list, each under the name of its element, keep the order of the names. -/
theorem keys_filterMap_sublist {β : Type} {f : β → Option (String × α)} {name : β → String}
    (h : ∀ b e, f b = some e → e.1 = name b) (bs : List β) : ((bs.filterMap f).map Prod.fst).Sublist (bs.map name) := by
  induction bs with
  | nil => exact .slnil
  | cons b bs ih =>
    rw [List.filterMap_cons, List.map_cons]
    split
    · exact ih.cons _
    · rename_i e he
      rw [List.map_cons, h b e he]
      exact ih.cons_cons _

end Listing

end Sequencer
