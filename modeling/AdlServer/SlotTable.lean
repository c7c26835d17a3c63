import Mathlib.Data.List.Basic

/-! A table of slots of which the lowest free one is taken, as a process's descriptors are. -/
namespace AdlServer.SlotTable
variable {δ : Type}

def lowest (table : List (Option δ)) : Option Nat := table.findIdx? Option.isNone

def free (table : List (Option δ)) : Nat := table.countP Option.isNone

variable {table : List (Option δ)} {i j : Nat}

theorem lowest_free (h : lowest table = some i) : table[i]? = some none := by
  obtain ⟨hi,hnone,_⟩ := List.findIdx?_eq_some_iff_getElem.mp h
  rw [List.getElem?_eq_getElem hi,Option.isNone_iff_eq_none.mp hnone]

theorem lowest_eq_none_iff : lowest table = none ↔ free table = 0 := by
  rw [lowest,free,List.findIdx?_eq_none_iff,List.countP_eq_zero]
  simp [Option.isSome_iff_ne_none]

theorem lowest_of_free (h : 0 < free table) : ∃ i, lowest table = some i := by
  cases hl : lowest table with
  | none =>
    rw [lowest_eq_none_iff.mp hl] at h
    omega
  | some i => exact ⟨i,rfl⟩

theorem free_fill (h : table[i]? = some none) (d : δ) :
    free (table.set i (some d))+1 = free table := by
  obtain ⟨hi,hv⟩ := List.getElem?_eq_some_iff.mp h
  have hmem : none∈table := List.mem_of_getElem? h
  have hpos : 0 < table.countP Option.isNone := List.countP_pos_iff.mpr ⟨none,hmem,rfl⟩
  rw [free,free,List.countP_set hi,hv]
  simp only [Option.isNone_none,if_true,Option.isNone_some,Bool.false_eq_true,if_false]
  omega

theorem set_back {o : Option δ} (h : table[i]? = some o) (p : Option δ) :
    (table.set i p).set i o = table := by
  obtain ⟨hi,hv⟩ := List.getElem?_eq_some_iff.mp h
  rw [List.set_set,← hv,List.set_getElem_self]

/-- In a full table the slot that is cleared is the lowest free one. -/
theorem lowest_clear (hfull : free table = 0) (hi : i < table.length) :
    lowest (table.set i none) = some i := by
  cases hl : lowest (table.set i none) with
  | none =>
    have hmem : none∈table.set i none := List.mem_of_getElem? (List.getElem?_set_self hi)
    have hpos : 0 < free (table.set i none) := List.countP_pos_iff.mpr ⟨none,hmem,rfl⟩
    rw [lowest_eq_none_iff.mp hl] at hpos
    omega
  | some j =>
    by_contra hne
    have hij : i ≠ j := fun h => hne (by rw [h])
    have hj := lowest_free hl
    rw [List.getElem?_set_ne hij] at hj
    have hpos : 0 < free table := List.countP_pos_iff.mpr ⟨none,List.mem_of_getElem? hj,rfl⟩
    omega

end AdlServer.SlotTable
