import Roomsync.Lib.Bytes
import Mathlib.Data.List.Sort
import Mathlib.Tactic.Zify
import Mathlib.Tactic.NormNum
/-!
# The Python the models run on

A method of a mutable object reads and writes the object's state and may raise.
What it wrote before raising stays written, so `Method` is the exception monad
over the state monad and `Method.call` returns the state in either case.
-/

namespace Roomsync.Lib

/-- The exceptions the modelled code raises or lets through.  Texts are kept
where the modelled source writes them itself. -/
inductive PyError
  | valueError (message : String)
  | runtimeError (message : String)
  | overflowError (message : String)
  | indexError
  | typeError
  | attributeError
  /-- `OSError`, of a socket that is closed -/
  | osError
  | blockingIOError
  /-- `struct.error` -/
  | structError
  | unicodeEncodeError
  /-- `cryptography.exceptions.InvalidTag` -/
  | invalidTag
  /-- `opuslib.OpusError` -/
  | opusError
  deriving DecidableEq, Repr

/-- What `except OSError` catches. -/
def PyError.isOSError : PyError → Bool
  | .osError => true
  | .blockingIOError => true
  | _ => false

abbrev Method (σ α : Type) := ExceptT PyError (StateM σ) α

namespace Method

variable {σ α β : Type}

/-- Call the method on an object in state `s`: the value it returns or the
exception it raises, and the state the object is left in. -/
def call (m : Method σ α) (s : σ) : Except PyError α × σ := (m.run.run s : Id _)

@[simp] theorem call_pure (a : α) (s : σ) :
    (pure a : Method σ α).call s = (.ok a, s) := rfl

@[simp] theorem call_throw (e : PyError) (s : σ) :
    (throw e : Method σ α).call s = (.error e, s) := rfl

@[simp] theorem call_get (s : σ) : (get : Method σ σ).call s = (.ok s, s) := rfl

@[simp] theorem call_set (s t : σ) : (set t : Method σ PUnit).call s = (.ok ⟨⟩, t) := rfl

theorem call_bind (m : Method σ α) (f : α → Method σ β) (s : σ) :
    (m >>= f).call s =
      match m.call s with
      | (.ok a, s') => (f a).call s'
      | (.error e, s') => (.error e, s') := by
  change (ExceptT.bindCont f (m.run.run s : Id _).1).run (m.run.run s : Id _).2 = _
  unfold call
  rcases (m.run.run s : Id _) with ⟨_ | _, _⟩ <;> rfl

theorem call_bind_ok {m : Method σ α} {f : α → Method σ β} {s s' : σ} {a : α}
    (h : m.call s = (.ok a, s')) : (m >>= f).call s = (f a).call s' := by
  rw [call_bind, h]

def exec (m : Method σ α) (s : σ) : σ := (m.call s).2

theorem exec_of_call {m : Method σ α} {s s' : σ} {r : Except PyError α}
    (h : m.call s = (r, s')) : m.exec s = s' := by
  unfold exec
  rw [h]

/-- A pure value or the exception that stands for its absence. -/
def ofOption (e : PyError) : Option α → Method σ α
  | some a => pure a
  | none => throw e

@[simp] theorem ofOption_some (e : PyError) (a : α) :
    (ofOption e (some a) : Method σ α) = pure a := rfl

@[simp] theorem ofOption_none (e : PyError) :
    (ofOption e none : Method σ α) = throw e := rfl

end Method

/-! ## Keyword arguments -/

/-- `f(**kwargs)` for an `f` without defaults: the keywords have to be the parameters. -/
def takesKeywords (parameters keywords : List String) : Bool :=
  keywords.all (parameters.contains ·) && parameters.all (keywords.contains ·)

/-! ## Bounded deques -/

structure Deque (α : Type) (maxlen : ℕ) where
  items : List α
  length_le : items.length ≤ maxlen

namespace Deque

variable {α : Type} {maxlen : ℕ}

def empty : Deque α maxlen := ⟨[], Nat.zero_le _⟩

/-- A full deque drops its oldest item. -/
def append (d : Deque α maxlen) (x : α) : Deque α maxlen :=
  ⟨(d.items ++ [x]).drop (d.items.length + 1 - maxlen), by
    rw [List.length_drop, List.length_append, List.length_singleton]
    omega⟩

/-- `none` is the `IndexError` of an empty deque. -/
def popleft (d : Deque α maxlen) : Option (α × Deque α maxlen) :=
  match h : d.items with
  | [] => none
  | x :: rest => some (x, ⟨rest, by
      have hlength := d.length_le
      rw [h, List.length_cons] at hlength
      omega⟩)

theorem items_append_of_lt {d : Deque α maxlen} (h : d.items.length < maxlen) (x : α) :
    (d.append x).items = d.items ++ [x] := by
  have hdrop : d.items.length + 1 - maxlen = 0 := by omega
  simp only [append, hdrop, List.drop_zero]

theorem popleft_of_cons {d : Deque α maxlen} {x : α} {rest : List α} (h : d.items = x :: rest) :
    ∃ d', d.popleft = some (x, d') ∧ d'.items = rest := by
  obtain ⟨items, hlength⟩ := d
  subst h
  exact ⟨_, rfl, rfl⟩

end Deque

/-! ## Strings and byte strings -/

/-- A `str` is a sequence of code points, lone surrogates included. -/
abbrev PyStr := List (Fin 0x110000)

def PyStr.ofString (s : String) : PyStr :=
  s.toList.map fun c => ⟨c.toNat, by
    rcases c.valid with h | h
    · have hlow : c.toNat < 0xD800 := h
      omega
    · exact h.2⟩

def encodeCodePoint (c : Fin 0x110000) : Option Bytes :=
  if 0xD800 ≤ c.val ∧ c.val ≤ 0xDFFF then none
  else some (String.utf8EncodeChar (Char.ofNat c.val))

/-- `s.encode()`; `none` is `UnicodeEncodeError`. -/
def PyStr.encode (s : PyStr) : Option Bytes := (s.mapM encodeCodePoint).map List.flatten

theorem mapM_eq_none_iff {α β : Type} {f : α → Option β} {xs : List α} :
    xs.mapM f = none ↔ ∃ x ∈ xs, f x = none := by
  induction xs with
  | nil => simp
  | cons x xs ih =>
      rw [List.mapM_cons, List.exists_mem_cons_iff, ← ih]
      cases f x with
      | none => simp
      | some y => cases xs.mapM f <;> simp

def PyStr.HasSurrogate (s : PyStr) : Prop := ∃ c ∈ s, 0xD800 ≤ c.val ∧ c.val ≤ 0xDFFF

theorem PyStr.encode_eq_none_iff (s : PyStr) : s.encode = none ↔ s.HasSurrogate := by
  unfold PyStr.encode PyStr.HasSurrogate encodeCodePoint
  simp only [Option.map_eq_none_iff, mapM_eq_none_iff, ite_eq_left_iff, reduceCtorEq, imp_false,
    not_not]

/-- `sorted` on byte strings, whose order is lexicographic. -/
def sorted (ids : List Bytes) : List Bytes := ids.insertionSort fun a b => a ≤ b

theorem sorted_perm (ids : List Bytes) : (sorted ids).Perm ids := List.perm_insertionSort _ ids

theorem sorted_pairwise (ids : List Bytes) : (sorted ids).Pairwise fun a b => a ≤ b := by
  have htotal : Std.Total fun a b : Bytes => a ≤ b := ⟨List.le_total⟩
  have htrans : IsTrans Bytes fun a b => a ≤ b := ⟨fun _ _ _ => List.le_trans⟩
  exact List.pairwise_insertionSort _ ids

theorem sorted_eq_of_perm {ids ids' : List Bytes} (h : ids.Perm ids') :
    sorted ids = sorted ids' := by
  have hperm := ((sorted_perm ids).trans h).trans (sorted_perm ids').symm
  exact hperm.eq_of_pairwise (fun a b _ _ => List.le_antisymm) (sorted_pairwise ids)
    (sorted_pairwise ids')

/-- One unsigned big-endian field of `struct.pack`; `none` is `struct.error`. -/
def packUnsigned (width : ℕ) (n : ℤ) : Option Bytes :=
  if 0 ≤ n ∧ n < 256 ^ width then some (bigEndian width n.toNat) else none

theorem packUnsigned_eq_some {width : ℕ} {n : ℤ} {b : Bytes} (h : packUnsigned width n = some b) :
    b.length = width ∧ (ofBigEndian b : ℤ) = n := by
  unfold packUnsigned at h
  split at h
  · rename_i hfits
    rw [← Option.some.inj h]
    refine ⟨length_bigEndian _ _, ?_⟩
    have hlt : n.toNat < 256 ^ width := by
      zify
      rw [Int.toNat_of_nonneg hfits.1]
      exact hfits.2
    rw [ofBigEndian_bigEndian hlt]
    exact Int.toNat_of_nonneg hfits.1
  · exact absurd h (by simp)

theorem packUnsigned_natCast (width : ℕ) {n : ℕ} (h : n < 256 ^ width) :
    packUnsigned width n = some (bigEndian width n) := by
  unfold packUnsigned
  rw [if_pos ⟨Int.natCast_nonneg n, by exact_mod_cast h⟩, Int.toNat_natCast]

theorem packUnsigned_natCast_of_le (width : ℕ) {n : ℕ} (h : 256 ^ width ≤ n) :
    packUnsigned width n = none := by
  unfold packUnsigned
  rw [if_neg]
  rintro ⟨-, hlt⟩
  have hlt' : n < 256 ^ width := by exact_mod_cast hlt
  omega

/-- A bytes field of `struct.pack`: cut to its width, or filled up with zeros. -/
def packBytes (width : ℕ) (b : Bytes) : Bytes := (b ++ List.replicate width 0).take width

theorem length_packBytes (width : ℕ) (b : Bytes) : (packBytes width b).length = width := by
  unfold packBytes
  rw [List.length_take, List.length_append, List.length_replicate]
  omega

theorem packBytes_of_length {width : ℕ} {b : Bytes} (h : b.length = width) :
    packBytes width b = b := List.take_left' h

end Roomsync.Lib
