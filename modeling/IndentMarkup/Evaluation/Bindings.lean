/-! Bindings: names with the nodes bound under them. Names keep the order in which they were first
bound, and each name keeps its nodes in the order in which they were bound. -/
namespace IndentMarkup

/-- Names with the nodes bound under them. -/
structure Bindings (ν : Type) where
  entries : List (String × List ν) := []
  deriving DecidableEq, Repr

namespace Bindings

variable {ν : Type}

def addTo (name : String) (node : ν) : List (String × List ν) → List (String × List ν)
  | [] => [(name, [node])]
  | (known, nodes) :: rest =>
    if known = name then (known, nodes ++ [node]) :: rest
    else (known, nodes) :: addTo name node rest

def add (bindings : Bindings ν) (name : String) (node : ν) : Bindings ν :=
  ⟨addTo name node bindings.entries⟩

def names (bindings : Bindings ν) : List String :=
  bindings.entries.map (·.1)

def size (bindings : Bindings ν) : Nat :=
  bindings.entries.length

/-- Every node bound under a name. -/
def get? (bindings : Bindings ν) (name : String) : Option (List ν) :=
  (bindings.entries.find? (·.1 == name)).map (·.2)

def first? (bindings : Bindings ν) (name : String) : Option ν :=
  (bindings.get? name).bind List.head?

def last? (bindings : Bindings ν) (name : String) : Option ν :=
  (bindings.get? name).bind List.getLast?

def firsts (bindings : Bindings ν) : List (String × ν) :=
  bindings.entries.filterMap fun (name, nodes) => nodes.head?.map fun node => (name, node)

/-- What a name stands for after a node has been added. -/
theorem find?_addTo (name other : String) (node : ν) (entries : List (String × List ν)) :
    (addTo name node entries).find? (·.1 == other) =
      if other = name then
        some (name, (((entries.find? (·.1 == name)).map (·.2)).getD []) ++ [node])
      else entries.find? (·.1 == other) := by
  induction entries with
  | nil =>
    by_cases h : other = name
    · simp [addTo, h]
    · have hne : name ≠ other := fun e => h e.symm
      simp [addTo, h, hne]
  | cons entry rest ih =>
    obtain ⟨known, nodes⟩ := entry
    by_cases hk : known = name
    · by_cases h : other = name
      · simp [addTo, hk, h]
      · have hne : name ≠ other := fun e => h e.symm
        simp [addTo, hk, h, hne]
    · by_cases h : other = name
      · subst h
        simp [addTo, hk, ih]
      · by_cases ho : known = other <;> simp [addTo, hk, h, ho, ih]

/-- A new node stands behind those bound before under its name. -/
theorem get?_add (bindings : Bindings ν) (name other : String) (node : ν) :
    (bindings.add name node).get? other =
      if other = name then some ((bindings.get? name).getD [] ++ [node])
      else bindings.get? other := by
  by_cases h : other = name <;> simp [get?, add, find?_addTo, h]

/-- A new node is the last under its name. -/
theorem last?_add (bindings : Bindings ν) (name other : String) (node : ν) :
    (bindings.add name node).last? other =
      if other = name then some node else bindings.last? other := by
  by_cases h : other = name <;> simp [last?, get?_add, h]

end Bindings

end IndentMarkup
