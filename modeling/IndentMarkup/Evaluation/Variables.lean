import IndentMarkup.Value.Basic

/-! Variables by name. A variable can be set, also if one of its name is there already, and removed;
whoever sets a variable for a while keeps the value from before and puts it back. -/
namespace IndentMarkup

structure Variables (ν : Type) where
  entries : List (String × Value ν) := []

namespace Variables

variable {ν : Type}

/-- Sets the value of a name in a list of entries: in its place, or at the end. -/
def insertTo (name : String) (value : Value ν) :
    List (String × Value ν) → List (String × Value ν)
  | [] => [(name, value)]
  | (known, old) :: rest =>
    if known = name then (known, value) :: rest else (known, old) :: insertTo name value rest

def get? (scope : Variables ν) (name : String) : Option (Value ν) :=
  (scope.entries.find? (·.1 == name)).map (·.2)

def insert (scope : Variables ν) (name : String) (value : Value ν) : Variables ν :=
  ⟨insertTo name value scope.entries⟩

def remove (scope : Variables ν) (name : String) : Variables ν :=
  ⟨scope.entries.filter (·.1 != name)⟩

/-- Puts back what a name stood for before, or removes the name if it stood for nothing. -/
def restore (scope : Variables ν) (name : String) : Option (Value ν) → Variables ν
  | some value => scope.insert name value
  | none => scope.remove name

theorem find?_insertTo (name other : String) (value : Value ν)
    (entries : List (String × Value ν)) :
    ((insertTo name value entries).find? (·.1 == other)).map (·.2) =
      if other = name then some value else (entries.find? (·.1 == other)).map (·.2) := by
  induction entries with
  | nil =>
    by_cases h : other = name
    · simp [insertTo, h]
    · have hne : name ≠ other := fun e => h e.symm
      simp [insertTo, h, hne]
  | cons entry rest ih =>
    obtain ⟨known, old⟩ := entry
    by_cases hk : known = name
    · subst hk
      by_cases h : other = known
      · simp [insertTo, h]
      · have hne : known ≠ other := fun e => h e.symm
        simp [insertTo, h, hne]
    · by_cases ho : known = other
      · subst ho
        simp [insertTo, hk]
      · simp [insertTo, hk, ho, ih]

/-- A variable that is set hides the one of its name and no other. -/
theorem get?_insert (scope : Variables ν) (name other : String) (value : Value ν) :
    (scope.insert name value).get? other =
      if other = name then some value else scope.get? other :=
  find?_insertTo name other value scope.entries

theorem get?_remove (scope : Variables ν) (name other : String) :
    (scope.remove name).get? other = if other = name then none else scope.get? other := by
  unfold get? remove
  rw [List.find?_filter]
  by_cases h : other = name
  · subst h
    simp
  · rw [if_neg h]
    congr 2
    funext entry
    by_cases he : entry.1 = other <;> simp [he, h]

theorem get?_restore (scope : Variables ν) (name other : String) (before : Option (Value ν)) :
    (scope.restore name before).get? other =
      if other = name then before else scope.get? other := by
  cases before with
  | some value => exact get?_insert scope name other value
  | none => exact get?_remove scope name other

/-- Setting a variable and putting back what was there before changes nothing at all. -/
theorem restore_insert (scope : Variables ν) (name : String) (value : Value ν) :
    (scope.insert name value).restore name (scope.get? name) = scope := by
  obtain ⟨entries⟩ := scope
  unfold get? insert
  induction entries with
  | nil => simp [restore, remove, insertTo]
  | cons entry rest ih =>
    obtain ⟨known, old⟩ := entry
    by_cases hk : known = name
    · simp [restore, insert, insertTo, hk]
    · have hrest := congrArg entries ih
      cases hfound : rest.find? (·.1 == name) with
      | none =>
        simp only [hfound, Option.map_none, restore, remove] at hrest
        simp [restore, remove, insertTo, hk, hfound, hrest]
      | some found =>
        simp only [hfound, Option.map_some, restore, insert] at hrest
        simp [restore, insert, insertTo, hk, hfound, hrest]

/-- What holds of all entries, and of a variable that is set, holds of all entries afterwards. -/
theorem forall_insert {P : String × Value ν → Prop} {scope : Variables ν} {name : String}
    {value : Value ν} (hvalue : P (name, value)) (h : ∀ entry ∈ scope.entries, P entry) :
    ∀ entry ∈ (scope.insert name value).entries, P entry := by
  obtain ⟨entries⟩ := scope
  unfold insert
  induction entries with
  | nil => simpa [insertTo] using hvalue
  | cons entry rest ih =>
    obtain ⟨hentry, hrest⟩ := List.forall_mem_cons.mp h
    simp only [insertTo]
    split
    · rename_i hname
      exact List.forall_mem_cons.mpr ⟨hname ▸ hvalue, hrest⟩
    · exact List.forall_mem_cons.mpr ⟨hentry, ih hrest⟩

end Variables

end IndentMarkup
