import Mathlib.Data.List.AList
import Mathlib.Data.Multiset.MapFold

/-!
# The entries of a finite map, as a multiset

What `insert` and `erase` of an `AList` do to its entries, when their order does
not matter.
-/

namespace FiniteMap

variable {κ : Type*} {β : κ → Type*} [DecidableEq κ] {m : AList β} {k : κ}

/-- The entries without their order. -/
def entries (m : AList β) : Multiset (Sigma β) := m.entries

theorem entries_insert (m : AList β) (k : κ) (v : β k) :
    entries (m.insert k v) = ⟨k, v⟩ ::ₘ entries (m.erase k) := by
  simp only [entries, AList.entries_insert, Multiset.cons_coe]
  rfl

theorem entries_of_lookup {v : β k} (h : m.lookup k = some v) :
    entries m = ⟨k, v⟩ ::ₘ entries (m.erase k) := by
  have hmem : (⟨k, v⟩ : Sigma β) ∈ m.entries := AList.mem_lookup_iff.1 h
  have hkey : k ∈ m.entries.keys := List.mem_keys_of_mem hmem
  obtain ⟨b, l₁, l₂, hnot, hl, herase⟩ := List.exists_of_kerase hkey
  have hb : b = v := by
    have hlook : m.lookup k = some b := by
      refine AList.mem_lookup_iff.2 ?_
      rw [hl]
      simp
    exact Option.some.inj (hlook.symm.trans h)
  subst hb
  have herase' : (m.erase k).entries = l₁ ++ l₂ := herase
  simp only [entries, hl, herase', Multiset.cons_coe]
  exact Quot.sound List.perm_middle

theorem erase_of_lookup_none (h : m.lookup k = none) : entries (m.erase k) = entries m := by
  have hnot : k ∉ m.entries.keys := AList.lookup_eq_none.1 h
  have herase : (m.erase k).entries = m.entries := List.kerase_of_notMem_keys hnot
  rw [entries, herase]
  rfl

theorem mem_entries {v : β k} : (⟨k, v⟩ : Sigma β) ∈ entries m ↔ m.lookup k = some v := by
  rw [entries, Multiset.mem_coe]
  exact AList.mem_lookup_iff.symm

end FiniteMap
