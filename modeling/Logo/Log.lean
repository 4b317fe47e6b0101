/-! Append-only sequences. -/
namespace Logo

/-- A sequence that grows at its end. The newest entry is held first. -/
structure Log (α : Type) where
  newestFirst : List α := []

namespace Log
variable {α : Type}

def toList (l : Log α) : List α := l.newestFirst.reverse

def push (l : Log α) (a : α) : Log α := ⟨a :: l.newestFirst⟩

def size (l : Log α) : Nat := l.newestFirst.length

@[simp] theorem toList_empty : (⟨[]⟩ : Log α).toList = [] := rfl

@[simp] theorem toList_push (l : Log α) (a : α) : (l.push a).toList = l.toList ++ [a] := by
  simp [toList, push]

@[simp] theorem length_toList (l : Log α) : l.toList.length = l.size := by
  simp [toList, size]

@[ext] theorem ext {l l' : Log α} (h : l.toList = l'.toList) : l = l' := by
  cases l; cases l'; simpa [toList] using h

end Log
end Logo
