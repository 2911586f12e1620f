/-!
Finite maps from names, in the order of first insertion.
-/

namespace Treewalk

structure NameMap (α : Type) where
  entries : List (String × α) := []
  deriving Repr, Inhabited

namespace NameMap

def empty : NameMap α := {}

def findIn (name : String) : List (String × α) → Option α
  | [] => none
  | (key, value) :: rest => if key = name then some value else findIn name rest

def find? (m : NameMap α) (name : String) : Option α :=
  findIn name m.entries

def contains (m : NameMap α) (name : String) : Bool :=
  (m.find? name).isSome

/-- Replaces the value of a name where it stands, or adds the name at the end. -/
def insertIn (name : String) (value : α) : List (String × α) → List (String × α)
  | [] => [(name, value)]
  | (key, old) :: rest =>
    if key = name then (name, value) :: rest else (key, old) :: insertIn name value rest

def insert (m : NameMap α) (name : String) (value : α) : NameMap α :=
  ⟨insertIn name value m.entries⟩

def names (m : NameMap α) : List String :=
  m.entries.map Prod.fst

theorem findIn_insertIn_self (name : String) (value : α) (entries : List (String × α)) :
    findIn name (insertIn name value entries) = some value := by
  induction entries with
  | nil => simp [insertIn, findIn]
  | cons entry rest ih =>
    obtain ⟨key, old⟩ := entry
    by_cases same : key = name
    · simp [insertIn, findIn, same]
    · simp [insertIn, findIn, same, ih]

theorem findIn_insertIn_of_ne {name other : String} (different : other ≠ name) (value : α)
    (entries : List (String × α)) :
    findIn other (insertIn name value entries) = findIn other entries := by
  induction entries with
  | nil => simp [insertIn, findIn, different.symm]
  | cons entry rest ih =>
    obtain ⟨key, old⟩ := entry
    by_cases same : key = name
    · subst same
      simp [insertIn, findIn, different.symm]
    · simp [insertIn, findIn, same, ih]

@[simp]
theorem find?_insert_self (m : NameMap α) (name : String) (value : α) :
    (m.insert name value).find? name = some value :=
  findIn_insertIn_self name value m.entries

theorem find?_insert_of_ne (m : NameMap α) {name other : String} (different : other ≠ name)
    (value : α) : (m.insert name value).find? other = m.find? other :=
  findIn_insertIn_of_ne different value m.entries

theorem find?_insert (m : NameMap α) (name other : String) (value : α) :
    (m.insert name value).find? other = if other = name then some value else m.find? other := by
  by_cases same : other = name
  · simp [same]
  · simp [same, find?_insert_of_ne m same value]

theorem contains_insert (m : NameMap α) (name other : String) (value : α) :
    (m.insert name value).contains other = (decide (other = name) || m.contains other) := by
  unfold contains
  rw [find?_insert]
  by_cases same : other = name <;> simp [same]

theorem mem_insertIn {name : String} {value : α} {entries : List (String × α)} {entry : String × α}
    (member : entry ∈ insertIn name value entries) : entry = (name, value) ∨ entry ∈ entries := by
  induction entries with
  | nil => simpa [insertIn] using member
  | cons first rest ih =>
    obtain ⟨key, old⟩ := first
    unfold insertIn at member
    split at member
    · rcases List.mem_cons.mp member with rfl | member
      · exact .inl rfl
      · exact .inr (by simp [member])
    · rcases List.mem_cons.mp member with rfl | member
      · exact .inr (by simp)
      · rcases ih member with rfl | member
        · exact .inl rfl
        · exact .inr (by simp [member])

theorem mem_insert {m : NameMap α} {name : String} {value : α} {entry : String × α}
    (member : entry ∈ (m.insert name value).entries) : entry = (name, value) ∨ entry ∈ m.entries :=
  mem_insertIn member

theorem names_insertIn (name : String) (value : α) (entries : List (String × α)) :
    (insertIn name value entries).map Prod.fst =
      if name ∈ entries.map Prod.fst then entries.map Prod.fst else entries.map Prod.fst ++ [name] := by
  induction entries with
  | nil => simp [insertIn]
  | cons first rest ih =>
    obtain ⟨key, old⟩ := first
    by_cases same : key = name
    · simp [insertIn, same]
    · simp only [insertIn, if_neg same, List.map_cons, ih, List.mem_cons, Ne.symm same, false_or]
      split <;> simp

theorem nodup_insert {m : NameMap α} (distinct : m.names.Nodup) (name : String) (value : α) :
    (m.insert name value).names.Nodup := by
  change ((insertIn name value m.entries).map Prod.fst).Nodup
  rw [names_insertIn]
  split
  · exact distinct
  · rename_i new
    refine List.nodup_append.mpr ⟨distinct, by simp, fun key held other last same => ?_⟩
    rw [List.mem_singleton.mp last] at same
    exact new (same ▸ held)

theorem mem_of_findIn {name : String} {value : α} {entries : List (String × α)}
    (found : findIn name entries = some value) : (name, value) ∈ entries := by
  induction entries with
  | nil => cases found
  | cons first rest ih =>
    obtain ⟨key, held⟩ := first
    unfold findIn at found
    split at found
    · rename_i same
      cases found
      simp [same]
    · simp [ih found]

theorem findIn_eq_some {name : String} {value : α} {entries : List (String × α)}
    (distinct : (entries.map Prod.fst).Nodup) : findIn name entries = some value ↔ (name, value) ∈ entries := by
  refine ⟨mem_of_findIn, fun member => ?_⟩
  induction entries with
  | nil => cases member
  | cons first rest ih =>
    obtain ⟨key, held⟩ := first
    obtain ⟨new, others⟩ := List.nodup_cons.mp distinct
    unfold findIn
    rcases List.mem_cons.mp member with same | later
    · cases same
      simp
    · have among : name ∈ rest.map Prod.fst := List.mem_map.mpr ⟨_, later, rfl⟩
      have different : key ≠ name := fun same => new (same ▸ among)
      rw [if_neg different]
      exact ih others later

theorem findIn_append (name : String) (first second : List (String × α)) :
    findIn name (first ++ second) = (findIn name first).or (findIn name second) := by
  induction first with
  | nil => rfl
  | cons entry rest ih =>
    obtain ⟨key, value⟩ := entry
    by_cases same : key = name <;> simp [findIn, same, ih]

theorem findIn_flatMap (name : String) (l : List β) (f : β → List (String × α)) :
    findIn name (l.flatMap f) = l.findSome? fun b => findIn name (f b) := by
  induction l with
  | nil => rfl
  | cons b rest ih =>
    rw [List.flatMap_cons, findIn_append, ih, List.findSome?_cons]
    cases findIn name (f b) <;> rfl

theorem findIn_map (name : String) (f : α → β) (entries : List (String × α)) :
    findIn name (entries.map fun x => (x.1, f x.2)) = (findIn name entries).map f := by
  induction entries with
  | nil => rfl
  | cons entry rest ih =>
    obtain ⟨key, value⟩ := entry
    by_cases same : key = name <;> simp [findIn, same, ih]

theorem contains_of_mem {m : NameMap α} {x : String × α} (member : x ∈ m.entries) :
    m.contains x.1 = true := by
  obtain ⟨entries⟩ := m
  simp only [contains, find?] at member ⊢
  induction entries with
  | nil => cases member
  | cons first rest ih =>
    obtain ⟨key, value⟩ := first
    unfold findIn
    split
    · rfl
    · rename_i other
      rcases List.mem_cons.mp member with rfl | member
      · exact absurd rfl other
      · exact ih member

theorem mem_of_find? {m : NameMap α} {name : String} {value : α} (found : m.find? name = some value) :
    (name, value) ∈ m.entries :=
  mem_of_findIn found

@[simp]
theorem find?_empty (name : String) : (empty : NameMap α).find? name = none := rfl

@[simp]
theorem contains_empty (name : String) : (empty : NameMap α).contains name = false := rfl

end NameMap

end Treewalk
