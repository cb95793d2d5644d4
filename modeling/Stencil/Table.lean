/-!
# Tables

A table keeps values under names in the order in which the names were first used. Main statements:
what is read after `set` and after `erase`, and from a table whose values are mapped.
-/

namespace Stencil

/-- Values under names, in order of first use. -/
abbrev Table (α : Type) := List (String × α)

namespace Table

variable {α : Type}

/-- The value under a name. -/
def get? : Table α → String → Option α
  | [], _ => none
  | (n, v) :: t, name => if n = name then some v else get? t name

/-- Whether a name is used. -/
def has (t : Table α) (name : String) : Bool := (t.get? name).isSome

/-- Puts a value under a name: in the place of the old one, else at the end. -/
def set : Table α → String → α → Table α
  | [], name, v => [(name, v)]
  | (n, w) :: t, name, v => if n = name then (n, v) :: t else (n, w) :: set t name v

/-- Takes a name out. -/
def erase (t : Table α) (name : String) : Table α := t.filter fun e => e.1 != name

/-- The names in order. -/
def names (t : Table α) : List String := t.map Prod.fst

/-- The names in the order of their code points. -/
def sortedNames (t : Table α) : List String := t.names.mergeSort fun a b => decide (a ≤ b)

/-- Puts in all values of another table, in its order. -/
def update (t u : Table α) : Table α := u.foldl (fun t e => t.set e.1 e.2) t

@[simp] theorem get?_nil (name : String) : get? ([] : Table α) name = none := rfl

theorem get?_set (t : Table α) (name other : String) (v : α) :
    (t.set name v).get? other = if name = other then some v else t.get? other := by
  induction t with
  | nil => simp [set, get?]
  | cons e t ih =>
    obtain ⟨n, w⟩ := e
    by_cases h : n = name
    · subst h
      by_cases ho : n = other <;> simp [set, get?, ho]
    · by_cases hn : n = other
      · subst hn
        simp [set, get?, h, Ne.symm h]
      · simp [set, get?, h, hn, ih]

theorem get?_erase (t : Table α) (name other : String) :
    (t.erase name).get? other = if name = other then none else t.get? other := by
  induction t with
  | nil => simp [erase]
  | cons e t ih =>
    obtain ⟨n, w⟩ := e
    simp only [erase] at ih
    by_cases h : n = name
    · subst h
      by_cases ho : n = other
      · subst ho
        simpa [erase] using ih
      · simpa [erase, get?, ho] using ih
    · by_cases ho : n = other
      · subst ho
        simp [erase, get?, h, Ne.symm h]
      · simp [erase, get?, h, ho, ih]

theorem forall_get?_set {t : Table α} {P : α → Prop} {name : String} {v : α}
    (h : ∀ x w, t.get? x = some w → P w) (hv : P v) :
    ∀ x w, (t.set name v).get? x = some w → P w := by
  intro x w hw
  rw [get?_set] at hw
  split at hw
  · cases hw
    exact hv
  · exact h x w hw

theorem mem_set {t : Table α} {name : String} {v : α} {e : String × α}
    (h : e ∈ t.set name v) : e ∈ t ∨ e = (name, v) := by
  induction t with
  | nil => exact .inr (List.mem_singleton.1 h)
  | cons x t ih =>
    unfold set at h
    split at h
    · rename_i hx
      rcases List.mem_cons.1 h with rfl | h
      · exact .inr (congrArg (·, v) hx)
      · exact .inl (List.mem_cons_of_mem _ h)
    · rcases List.mem_cons.1 h with rfl | h
      · exact .inl List.mem_cons_self
      · exact (ih h).imp_left (List.mem_cons_of_mem _)

theorem get?_map {β : Type} (f : α → β) (t : Table α) (name : String) :
    get? (t.map fun e => (e.1, f e.2)) name = (t.get? name).map f := by
  induction t with
  | nil => rfl
  | cons x t ih =>
    simp only [List.map_cons, get?]
    split
    · rfl
    · exact ih

theorem map_set {β : Type} (f : α → β) (t : Table α) (name : String) (v : α) :
    (t.set name v).map (fun e => (e.1, f e.2)) =
      set (t.map fun e => (e.1, f e.2)) name (f v) := by
  induction t with
  | nil => rfl
  | cons x t ih =>
    by_cases h : x.1 = name
    · simp only [set, h, if_true, List.map_cons]
    · simp only [set, h, if_false, List.map_cons, ih]

end Table

end Stencil
