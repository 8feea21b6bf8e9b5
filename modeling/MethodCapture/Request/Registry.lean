import MethodCapture.Failure

/-!
What is tracked under request ids. An id is taken from the time something is inserted under it until
it is erased; entries stay in the order of insertion.
-/

namespace MethodCapture

structure Registry (α : Type) where
  entries : List (RequestId × α)
  deriving DecidableEq

namespace Registry

variable {α : Type}

def empty : Registry α := ⟨[]⟩

def size (g : Registry α) : Nat := g.entries.length

def isEmpty (g : Registry α) : Bool := g.entries.isEmpty

def ids (g : Registry α) : List RequestId := g.entries.map (·.1)

def get? (g : Registry α) (id : RequestId) : Option α :=
  (g.entries.find? (·.1 == id)).map (·.2)

def contains (g : Registry α) (id : RequestId) : Bool := (g.get? id).isSome

/-- Nothing is inserted under an id that is taken. -/
def insert (g : Registry α) (id : RequestId) (a : α) : Except Failure (Registry α) :=
  if g.contains id then .error (.duplicateRequest id) else .ok ⟨g.entries ++ [(id, a)]⟩

def erase (g : Registry α) (id : RequestId) : Registry α :=
  ⟨g.entries.filter (·.1 != id)⟩

/-- The first entry, in order of insertion, that satisfies `p`. -/
def find? (g : Registry α) (p : α → Bool) : Option α :=
  (g.entries.find? (p ·.2)).map (·.2)

@[simp] theorem get?_empty (id : RequestId) : (empty : Registry α).get? id = none := rfl

theorem get?_insert {g g' : Registry α} {id : RequestId} {a : α} (h : g.insert id a = .ok g')
    (id' : RequestId) : g'.get? id' = if id' = id then some a else g.get? id' := by
  unfold insert at h
  split at h
  · cases h
  · next hn =>
    cases h
    simp only [contains, get?, Option.isSome_map, Bool.not_eq_true, Option.isSome_eq_false_iff,
      Option.isNone_iff_eq_none] at hn
    simp only [get?, List.find?_append]
    split
    · next he =>
      subst he
      simp [hn]
    · next he =>
      have : id ≠ id' := fun h => he h.symm
      cases g.entries.find? (·.1 == id') <;> simp [this]

theorem get?_erase (g : Registry α) (id id' : RequestId) :
    (g.erase id).get? id' = if id' = id then none else g.get? id' := by
  simp only [erase, get?, List.find?_filter]
  split
  · next he =>
    subst he
    simp only [Option.map_eq_none_iff, List.find?_eq_none]
    intro x _
    simp
  · next he =>
    congr 2
    funext x
    by_cases hx : x.1 = id' <;> simp [hx, he]

theorem contains_iff_mem_ids {g : Registry α} {id : RequestId} :
    g.contains id = true ↔ id ∈ g.ids := by
  simp [contains, get?, ids]

/-- Under different ids, looking up an id finds exactly the entry with that id. -/
theorem get?_eq_some_iff {g : Registry α} (hn : g.ids.Nodup) {id : RequestId} {a : α} :
    g.get? id = some a ↔ (id, a) ∈ g.entries := by
  obtain ⟨es⟩ := g
  simp only [get?, ids] at hn ⊢
  induction es with
  | nil => simp
  | cons e es ih =>
    obtain ⟨id', a'⟩ := e
    rw [List.map_cons, List.nodup_cons] at hn
    by_cases he : id' = id
    · have hid : (id, a) ∉ es := by
        intro hmem
        have : id ∈ es.map (·.1) := List.mem_map_of_mem hmem
        exact hn.1 (he ▸ this)
      simp [he, hid, eq_comm]
    · have hid : ¬ id = id' := fun h => he h.symm
      simp [he, hid, ih hn.2]

theorem entries_of_insert {g g' : Registry α} {id : RequestId} {a : α}
    (h : g.insert id a = .ok g') :
    id ∉ g.ids ∧ g'.entries = g.entries ++ [(id, a)] := by
  unfold insert at h
  split at h
  · cases h
  · next hc =>
    cases h
    exact ⟨fun hmem => hc (contains_iff_mem_ids.2 hmem), rfl⟩

/-- Erasing the id of a new entry takes back the insertion and nothing else. -/
theorem erase_of_insert {g g' : Registry α} {id : RequestId} {a : α} (h : g.insert id a = .ok g') :
    g'.erase id = g := by
  obtain ⟨hid, hentries⟩ := entries_of_insert h
  have hothers : g.entries.filter (·.1 != id) = g.entries := by
    apply List.filter_eq_self.2
    intro entry hentry
    have hmem : entry.1 ∈ g.ids := List.mem_map_of_mem hentry
    have hne : entry.1 ≠ id := fun he => hid (he ▸ hmem)
    exact bne_iff_ne.2 hne
  rw [erase, hentries, List.filter_append, hothers]
  simp

end Registry

end MethodCapture
