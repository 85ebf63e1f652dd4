import Mathlib.Data.List.Basic
import Mathlib.Logic.Relation
import Mathlib.Tactic.Common
/-!
# Where the pieces of a string end

A list of pieces run together keeps their letters and forgets where one piece ends
and the next begins.  Two lists of pieces give the same string exactly when moving
those boundaries takes one list to the other.
-/

namespace Roomsync.Lib

variable {α : Type*}

inductive Rebound : List (List α) → List (List α) → Prop
  | merge (before : List (List α)) (x y : List α) (after : List (List α)) :
      Rebound (before ++ x :: y :: after) (before ++ (x ++ y) :: after)
  | drop (before after : List (List α)) :
      Rebound (before ++ [] :: after) (before ++ after)

/-- Each list comes from the other by merging and splitting neighbours and by
dropping and inserting empty pieces. -/
def Regrouped : List (List α) → List (List α) → Prop := Relation.EqvGen Rebound

namespace Regrouped

theorem flatten_eq {xs ys : List (List α)} (h : Regrouped xs ys) : xs.flatten = ys.flatten := by
  induction h with
  | rel xs ys h =>
      cases h with
      | merge before x y after => simp
      | drop before after => simp
  | refl xs => rfl
  | symm xs ys _ ih => exact ih.symm
  | trans xs ys zs _ _ ihxy ihyz => exact ihxy.trans ihyz

theorem cons (x : List α) {xs ys : List (List α)} (h : Regrouped xs ys) :
    Regrouped (x :: xs) (x :: ys) := by
  induction h with
  | rel xs ys h =>
      apply Relation.EqvGen.rel
      cases h with
      | merge before y z after => exact Rebound.merge (x :: before) y z after
      | drop before after => exact Rebound.drop (x :: before) after
  | refl xs => exact Relation.EqvGen.refl _
  | symm xs ys _ ih => exact ih.symm
  | trans xs ys zs _ _ ihxy ihyz => exact ihxy.trans _ _ _ ihyz

theorem singleton_flatten (xs : List (List α)) : Regrouped xs [xs.flatten] := by
  induction xs with
  | nil => exact (Relation.EqvGen.rel _ _ (Rebound.drop [] [])).symm
  | cons x xs ih =>
      have hmerge : Rebound [x, xs.flatten] [x ++ xs.flatten] :=
        Rebound.merge [] x xs.flatten []
      exact (ih.cons x).trans _ _ _ (Relation.EqvGen.rel _ _ hmerge)

end Regrouped

theorem regrouped_iff (xs ys : List (List α)) : Regrouped xs ys ↔ xs.flatten = ys.flatten := by
  constructor
  · exact Regrouped.flatten_eq
  · intro h
    have hxs := Regrouped.singleton_flatten xs
    have hys := Regrouped.singleton_flatten ys
    rw [h] at hxs
    exact hxs.trans _ _ _ hys.symm

end Roomsync.Lib
