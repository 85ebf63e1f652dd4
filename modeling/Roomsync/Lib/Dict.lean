import Mathlib.Data.List.Nodup
import Mathlib.Tactic.Common
/-!
# Insertion-ordered dictionaries

A dictionary is its list of entries in insertion order, no key twice.  Setting a
key that is present replaces its value in place; a new key goes to the end.
-/

namespace Roomsync.Lib

structure Dict (κ β : Type*) where
  entries : List (κ × β)
  nodup : (entries.map Prod.fst).Nodup

namespace Dict

variable {κ β : Type*}

def empty : Dict κ β := ⟨[], List.nodup_nil⟩

def keys (d : Dict κ β) : List κ := d.entries.map Prod.fst

def size (d : Dict κ β) : ℕ := d.entries.length

/-- `list(d.values())`. -/
def values (d : Dict κ β) : List β := d.entries.map Prod.snd

theorem mem_values {d : Dict κ β} {v : β} : v ∈ d.values ↔ ∃ k, (k, v) ∈ d.entries := by
  unfold values
  simp

theorem mem_keys_iff {d : Dict κ β} {k : κ} : k ∈ d.keys ↔ ∃ v, (k, v) ∈ d.entries := by
  unfold keys
  simp

variable [DecidableEq κ]

private theorem map_fst_update (entries : List (κ × β)) (k : κ) (v : β) :
    (entries.map fun e => if e.1 = k then (k, v) else e).map Prod.fst =
      entries.map Prod.fst := by
  rw [List.map_map]
  apply List.map_congr_left
  intro e _
  by_cases h : e.1 = k <;> simp [h]

/-- `d[k] = v`. -/
def set (d : Dict κ β) (k : κ) (v : β) : Dict κ β :=
  if h : k ∈ d.keys then
    ⟨d.entries.map fun e => if e.1 = k then (k, v) else e, by
      rw [map_fst_update]
      exact d.nodup⟩
  else
    ⟨d.entries ++ [(k, v)], by
      rw [List.map_append]
      exact List.Nodup.append d.nodup (List.nodup_singleton k)
        (List.disjoint_singleton.mpr h)⟩

/-- `d.pop(k, None)`, as far as the dictionary is concerned. -/
def pop (d : Dict κ β) (k : κ) : Dict κ β :=
  ⟨d.entries.filter fun e => e.1 ≠ k,
    d.nodup.sublist (List.filter_sublist.map Prod.fst)⟩

def get? (d : Dict κ β) (k : κ) : Option β :=
  (d.entries.find? fun e => e.1 = k).map Prod.snd

def getD (d : Dict κ β) (k : κ) (default : β) : β := (d.get? k).getD default

/-! ## What a dictionary holds -/

variable {d : Dict κ β} {k k' : κ} {v v' : β}

@[simp] theorem get?_empty (k : κ) : (empty : Dict κ β).get? k = none := rfl

theorem get?_eq_some_iff : d.get? k = some v ↔ (k, v) ∈ d.entries := by
  unfold get?
  constructor
  · intro h
    obtain ⟨e, hfind, hvalue⟩ := Option.map_eq_some_iff.mp h
    have hkey : e.1 = k := by simpa using List.find?_some hfind
    rw [← hkey, ← hvalue]
    exact List.mem_of_find?_eq_some hfind
  · intro h
    cases hfind : d.entries.find? fun e => e.1 = k with
    | none =>
        have hnone := List.find?_eq_none.mp hfind (k, v) h
        simp at hnone
    | some e =>
        have hkey : e.1 = (k, v).1 := by simpa using List.find?_some hfind
        have heq := List.inj_on_of_nodup_map d.nodup (List.mem_of_find?_eq_some hfind) h hkey
        rw [heq]
        rfl

theorem mem_entries_set :
    (k', v') ∈ (d.set k v).entries ↔ k' = k ∧ v' = v ∨ k' ≠ k ∧ (k', v') ∈ d.entries := by
  unfold set
  split
  · rename_i hk
    simp only [List.mem_map]
    constructor
    · rintro ⟨e, he, heq⟩
      by_cases hkey : e.1 = k
      · rw [if_pos hkey] at heq
        left
        exact Prod.mk.inj heq.symm
      · rw [if_neg hkey] at heq
        subst heq
        exact .inr ⟨hkey, he⟩
    · rintro (⟨rfl, rfl⟩ | ⟨hne, he⟩)
      · obtain ⟨e, he, hkey⟩ := List.mem_map.mp hk
        exact ⟨e, he, if_pos hkey⟩
      · exact ⟨_, he, if_neg hne⟩
  · rename_i hk
    simp only [List.mem_append, List.mem_singleton, Prod.mk.injEq]
    constructor
    · rintro (he | heq)
      · right
        refine ⟨?_, he⟩
        rintro rfl
        exact hk (List.mem_map_of_mem he)
      · exact .inl heq
    · rintro (heq | ⟨-, he⟩)
      · exact .inr heq
      · exact .inl he

theorem mem_entries_pop : (k', v') ∈ (d.pop k).entries ↔ k' ≠ k ∧ (k', v') ∈ d.entries := by
  unfold pop
  simp [and_comm]

theorem get?_set_self (d : Dict κ β) (k : κ) (v : β) : (d.set k v).get? k = some v := by
  rw [get?_eq_some_iff, mem_entries_set]
  exact .inl ⟨rfl, rfl⟩

theorem get?_set_of_ne (d : Dict κ β) (h : k' ≠ k) (v : β) :
    (d.set k v).get? k' = d.get? k' := by
  apply Option.ext
  intro v'
  rw [get?_eq_some_iff, get?_eq_some_iff, mem_entries_set]
  simp [h]

theorem get?_pop_self (d : Dict κ β) (k : κ) : (d.pop k).get? k = none := by
  apply Option.eq_none_iff_forall_ne_some.mpr
  intro v h
  rw [get?_eq_some_iff, mem_entries_pop] at h
  exact h.1 rfl

theorem get?_pop_of_ne (d : Dict κ β) (h : k' ≠ k) : (d.pop k).get? k' = d.get? k' := by
  apply Option.ext
  intro v'
  rw [get?_eq_some_iff, get?_eq_some_iff, mem_entries_pop]
  simp [h]

theorem pop_of_get?_eq_none (h : d.get? k = none) : d.pop k = d := by
  have hentries : (d.entries.filter fun e => e.1 ≠ k) = d.entries := by
    apply List.filter_eq_self.mpr
    intro e he
    apply decide_eq_true
    rintro rfl
    rw [get?_eq_some_iff.mpr he] at h
    exact absurd h (by simp)
  obtain ⟨entries, hnodup⟩ := d
  unfold pop
  simp only [hentries]

/-! ## Keys and size -/

theorem mem_keys_set : k' ∈ (d.set k v).keys ↔ k' = k ∨ k' ∈ d.keys := by
  simp only [mem_keys_iff, mem_entries_set]
  constructor
  · rintro ⟨v', ⟨hkey, -⟩ | ⟨-, he⟩⟩
    · exact .inl hkey
    · exact .inr ⟨v', he⟩
  · rintro (hkey | ⟨v', he⟩)
    · exact ⟨v, .inl ⟨hkey, rfl⟩⟩
    · by_cases hkey : k' = k
      · exact ⟨v, .inl ⟨hkey, rfl⟩⟩
      · exact ⟨v', .inr ⟨hkey, he⟩⟩

theorem mem_keys_pop : k' ∈ (d.pop k).keys ↔ k' ≠ k ∧ k' ∈ d.keys := by
  simp only [mem_keys_iff, mem_entries_pop, exists_and_left]

theorem size_set_of_mem (h : k ∈ d.keys) (v : β) : (d.set k v).size = d.size := by
  simp only [set, size, dif_pos h, List.length_map]

theorem size_set_of_notMem (h : k ∉ d.keys) (v : β) : (d.set k v).size = d.size + 1 := by
  simp only [set, size, dif_neg h, List.length_append, List.length_singleton]

theorem size_set_le (d : Dict κ β) (k : κ) (v : β) : (d.set k v).size ≤ d.size + 1 := by
  by_cases h : k ∈ d.keys
  · rw [size_set_of_mem h]
    exact Nat.le_succ _
  · exact Nat.le_of_eq (size_set_of_notMem h v)

theorem size_pop_le (d : Dict κ β) (k : κ) : (d.pop k).size ≤ d.size :=
  List.length_filter_le _ _

end Dict

end Roomsync.Lib
