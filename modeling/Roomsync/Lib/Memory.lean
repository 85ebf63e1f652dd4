import Mathlib.Data.Int.Notation
import Mathlib.Data.List.Basic
import Mathlib.Data.Nat.Basic
import Mathlib.Tactic.Common
/-!
# Arrays of a length known at run time

Reads and copies that fail out of range, pointers that may be null, and an array that
keeps the end of a stream.
-/

namespace Roomsync.Lib

variable {α : Type*}

/-- `x[i]`, the index computed in `int`. -/
def readAt (x : List α) (i : ℤ) : Option α := if i < 0 then none else x[i.toNat]?

def memmove (x : List α) (dst src len : ℕ) : Option (List α) :=
  if src + len ≤ x.length ∧ dst + len ≤ x.length then
    some (x.take dst ++ (x.drop src).take len ++ x.drop (dst + len))
  else none

/-- `std::memcpy` into `x` at `dst`. -/
def memcpy (x : List α) (dst : ℕ) (source : List α) (len : ℕ) : Option (List α) :=
  if len ≤ source.length ∧ dst + len ≤ x.length then
    some (x.take dst ++ source.take len ++ x.drop (dst + len))
  else none

theorem readAt_natCast (x : List α) (i : ℕ) : readAt x i = x[i]? := by
  unfold readAt
  rw [if_neg (by omega), Int.toNat_natCast]

theorem memcpy_append {x tail new : List α} (h : tail.length = new.length) :
    memcpy (x ++ tail) x.length new new.length = some (x ++ new) := by
  have hlength : (x ++ tail).length = x.length + new.length := by
    rw [List.length_append, h]
  unfold memcpy
  rw [if_pos ⟨le_rfl, by omega⟩, List.take_left, List.take_length, ← hlength,
    List.drop_length, List.append_nil]

theorem memcpy_middle {x old y new : List α} (h : old.length = new.length) :
    memcpy (x ++ old ++ y) x.length new new.length = some (x ++ new ++ y) := by
  have hlength : (x ++ old).length = x.length + new.length := by
    rw [List.length_append, h]
  unfold memcpy
  rw [if_pos ⟨le_rfl, by rw [List.length_append, hlength]; omega⟩, ← hlength,
    List.drop_left, List.append_assoc x old, List.take_left, List.take_length]

theorem memcpy_whole {x new : List α} {n : ℕ} (hx : x.length = n) (hnew : new.length = n) :
    memcpy x 0 new n = some new := by
  have hcopy : memcpy ([] ++ x ++ []) [].length new new.length = some ([] ++ new ++ []) :=
    memcpy_middle (hx.trans hnew.symm)
  rw [List.append_nil, List.append_nil, List.nil_append, List.nil_append, List.length_nil,
    hnew] at hcopy
  exact hcopy

/-- Slid to the left and filled up at the end, an array has forgotten its oldest elements. -/
theorem memmove_memcpy {x new : List α} (h : new.length ≤ x.length) :
    ∃ y, memmove x 0 new.length (x.length - new.length) = some y ∧
      memcpy y (y.length - new.length) new new.length = some ((x ++ new).drop new.length) := by
  have hkept : (x.drop new.length).length = x.length - new.length := List.length_drop
  have htail : (x.drop (x.length - new.length)).length = new.length := by
    rw [List.length_drop]
    omega
  refine ⟨x.drop new.length ++ x.drop (x.length - new.length), ?_, ?_⟩
  · unfold memmove
    rw [if_pos (by omega), List.take_zero, List.nil_append, Nat.zero_add,
      List.take_of_length_le (by omega)]
  · have hlength : (x.drop new.length ++ x.drop (x.length - new.length)).length -
        new.length = (x.drop new.length).length := by
      rw [List.length_append, htail]
      omega
    rw [hlength, memcpy_append htail, List.drop_append_of_le_length h]

/-! ## Pointers -/

/-- A pointer to the elements of an array, or null. -/
abbrev Pointer (α : Type*) := Option (List α)

namespace Pointer

def read (p : Pointer α) (i : ℕ) : Option α := p.bind fun x => x[i]?

/-- `std::vector(p, p + n)`. -/
def copy (p : Pointer α) (n : ℕ) : Option (List α) :=
  p.bind fun x => if n ≤ x.length then some (x.take n) else none

theorem read_some (x : List α) (i : ℕ) : read (some x) i = x[i]? := rfl

theorem copy_some (x : List α) : copy (some x) x.length = some x := by
  unfold copy
  rw [Option.bind_some, if_pos le_rfl, List.take_length]

end Pointer

/-! ## The end of a list -/

theorem drop_concat_of_bound (l : List α) (x : α) (n : ℕ) :
    (if (l.drop (l.length - n) ++ [x]).length > n then (l.drop (l.length - n) ++ [x]).drop 1
      else l.drop (l.length - n) ++ [x]) = (l ++ [x]).drop ((l ++ [x]).length - n) := by
  have hlength : (l.drop (l.length - n) ++ [x]).length = min l.length n + 1 := by
    rw [List.length_append, List.length_drop, List.length_singleton]
    omega
  rw [hlength, List.length_append, List.length_singleton]
  by_cases hfull : n ≤ l.length
  · have hone : l.length + 1 - n = l.length - n + 1 := by omega
    have hdrop : (l ++ [x]).drop (l.length - n) = l.drop (l.length - n) ++ [x] :=
      List.drop_append_of_le_length (by omega)
    rw [if_pos (by omega), hone, ← List.drop_drop, hdrop]
  · have hnone : l.length + 1 - n = 0 := by omega
    have hnone' : l.length - n = 0 := by omega
    rw [if_neg (by omega), hnone, hnone', List.drop_zero, List.drop_zero]

theorem drop_suffix {l all : List α} {n : ℕ} (h : l <:+ all)
    (hn : n ≤ l.length ∨ l = all) :
    l.drop (l.length - n) = all.drop (all.length - n) := by
  rcases hn with hn | rfl
  · obtain ⟨t, rfl⟩ := h
    have hplace : (t ++ l).length - n = t.length + (l.length - n) := by
      rw [List.length_append]
      omega
    rw [hplace, List.drop_length_add_append]
  · rfl

/-! ## The end of a stream -/

section Window

variable {a : α} {size : ℕ} {stream : List α}

/-- The last `size` elements of a stream, after as many `a` as it takes. -/
def window (a : α) (size : ℕ) (stream : List α) : List α :=
  (List.replicate size a ++ stream).drop stream.length

/-- The element of a stream at time `t`: `a` before the start. -/
def streamAt (a : α) (stream : List α) (t : ℤ) : α :=
  if t < 0 then a else stream.getD t.toNat a

theorem streamAt_map {β : Type*} (f : α → β) (a : α) (stream : List α) (t : ℤ) :
    streamAt (f a) (stream.map f) t = f (streamAt a stream t) := by
  unfold streamAt
  split
  · rfl
  · rw [List.getD_eq_getElem?_getD, List.getElem?_map, Option.getD_map,
      ← List.getD_eq_getElem?_getD]

theorem window_nil (a : α) (size : ℕ) : window a size [] = List.replicate size a := by
  unfold window
  rw [List.append_nil, List.length_nil, List.drop_zero]

@[simp] theorem length_window (a : α) (size : ℕ) (stream : List α) :
    (window a size stream).length = size := by
  unfold window
  rw [List.length_drop, List.length_append, List.length_replicate]
  omega

theorem window_append (a : α) (size : ℕ) (stream new : List α) :
    window a size (stream ++ new) = (window a size stream ++ new).drop new.length := by
  unfold window
  rw [← List.append_assoc, List.length_append, ← List.drop_drop,
    List.drop_append_of_le_length (by
      rw [List.length_append, List.length_replicate]
      omega)]

theorem readAt_window (a : α) (stream : List α) {i : ℤ} (hi : 0 ≤ i) (hi' : i < size) :
    readAt (window a size stream) i = some (streamAt a stream (stream.length + i - size)) := by
  obtain ⟨j, rfl⟩ := Int.eq_ofNat_of_zero_le hi
  have hj : j < size := by omega
  rw [readAt_natCast]
  unfold window streamAt
  rw [List.getElem?_drop]
  by_cases hold : stream.length + j < size
  · rw [List.getElem?_append_left (by rw [List.length_replicate]; omega),
      List.getElem?_replicate, if_pos hold, if_pos (by omega)]
  · rw [List.getElem?_append_right (by rw [List.length_replicate]; omega),
      List.length_replicate, if_neg (by omega)]
    have hindex : ((stream.length : ℤ) + j - size).toNat = stream.length + j - size := by omega
    rw [hindex, List.getD_eq_getElem?_getD, List.getElem?_eq_getElem (by omega)]
    rfl

end Window

end Roomsync.Lib
