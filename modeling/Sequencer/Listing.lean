set_option autoImplicit false

/-!
# Listings

A listing maps names to values and remembers the order in which the names were written. Writing a name again
replaces its value and moves it to the end.
-/

namespace Sequencer

structure Listing (α : Type) where
  entries : List (String × α)
  nodup : (entries.map Prod.fst).Nodup

namespace Listing

variable {α β : Type}

instance [DecidableEq α] : DecidableEq (Listing α) := fun a b =>
  if h : a.entries = b.entries then
    isTrue (by cases a; cases b; cases h; rfl)
  else
    isFalse fun hab => h (hab ▸ rfl)

instance [Repr α] : Repr (Listing α) := ⟨fun l n => reprPrec l.entries n⟩

@[ext]
theorem ext {a b : Listing α} (h : a.entries = b.entries) : a = b := by
  cases a
  cases b
  cases h
  rfl

def empty : Listing α := ⟨[], List.nodup_nil⟩

instance : Inhabited (Listing α) := ⟨empty⟩

def keys (l : Listing α) : List String := l.entries.map Prod.fst

def values (l : Listing α) : List α := l.entries.map Prod.snd

def isEmpty (l : Listing α) : Bool := l.entries.isEmpty

def get? (l : Listing α) (k : String) : Option α := (l.entries.find? (·.1 == k)).map Prod.snd

def contains (l : Listing α) (k : String) : Bool := l.entries.any (·.1 == k)

/-- Keeps the entries that satisfy `p`, in their order. -/
def filter (p : String → α → Bool) (l : Listing α) : Listing α where
  entries := l.entries.filter fun e => p e.1 e.2
  nodup := l.nodup.sublist ((List.filter_sublist (l := l.entries)).map Prod.fst)

def erase (l : Listing α) (k : String) : Listing α := l.filter fun k' _ => k' != k

theorem not_mem_keys_erase (l : Listing α) (k : String) : k ∉ (l.erase k).entries.map Prod.fst := by
  simp [erase, filter]

/-- Writes `v` under `k`, as the last entry. -/
def insert (l : Listing α) (k : String) (v : α) : Listing α where
  entries := (l.erase k).entries ++ [(k, v)]
  nodup := by
    rw [List.map_append, List.nodup_append]
    refine ⟨(l.erase k).nodup, by simp, ?_⟩
    intro a ha b hb hab
    have hbk : b = k := by simpa using hb
    rw [hab, hbk] at ha
    exact l.not_mem_keys_erase k ha

def insertAll (l : Listing α) (es : List (String × α)) : Listing α :=
  es.foldl (fun acc e => acc.insert e.1 e.2) l

def ofList (es : List (String × α)) : Listing α := empty.insertAll es

/-- Changes the values and leaves the names and their order. -/
def map (f : α → β) (l : Listing α) : Listing β where
  entries := l.entries.map fun e => (e.1, f e.2)
  nodup := by
    have h : (l.entries.map fun e => (e.1, f e.2)).map Prod.fst = l.entries.map Prod.fst := by simp
    rw [h]
    exact l.nodup

@[simp]
theorem entries_insert (l : Listing α) (k : String) (v : α) :
    (l.insert k v).entries = l.entries.filter (fun e => e.1 != k) ++ [(k, v)] := rfl

@[simp]
theorem entries_map (f : α → β) (l : Listing α) : (l.map f).entries = l.entries.map fun e => (e.1, f e.2) := rfl

@[simp]
theorem entries_filter (p : String → α → Bool) (l : Listing α) :
    (l.filter p).entries = l.entries.filter fun e => p e.1 e.2 := rfl

@[simp]
theorem get?_empty (k : String) : (empty : Listing α).get? k = none := rfl

@[simp]
theorem keys_insert (l : Listing α) (k : String) (v : α) :
    (l.insert k v).keys = l.keys.filter (fun k' => k' != k) ++ [k] := by
  simp [keys, List.filter_map, Function.comp_def]

@[simp]
theorem get?_insert_self (l : Listing α) (k : String) (v : α) : (l.insert k v).get? k = some v := by
  have h : (l.entries.filter fun e => e.1 != k).find? (fun e => e.1 == k) = none := by
    simp [List.find?_eq_none]
  simp [get?, h]

theorem get?_insert_of_ne (l : Listing α) {k k' : String} (v : α) (h : k' ≠ k) :
    (l.insert k v).get? k' = l.get? k' := by
  have he : (l.entries.filter fun e => e.1 != k).find? (fun e => e.1 == k') =
      l.entries.find? (fun e => e.1 == k') := by
    rw [List.find?_filter]
    congr 1
    funext e
    by_cases hk : e.1 = k' <;> simp [hk, h]
  have hn : [(k, v)].find? (fun e => e.1 == k') = none := by
    simp [Ne.symm h]
  simp [get?, he, hn]

theorem contains_iff_mem_keys (l : Listing α) (k : String) : l.contains k = true ↔ k ∈ l.keys := by
  simp [contains, keys]

end Listing

end Sequencer
