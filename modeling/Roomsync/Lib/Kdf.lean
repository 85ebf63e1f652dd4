import Mathlib.Logic.Relation
import Mathlib.Logic.Function.Iterate
import Mathlib.Data.Set.Function
import Mathlib.Data.List.Induction
/-!
# Free key derivation

A key derivation function `kdf : κ → ℓ → κ` turns a key and a label into a new
key.  In the symbolic reading an attacker who holds some keys computes exactly
what `Derivable` allows, and the function is free: it loses nothing (`injective`)
and no key is ever derived, however indirectly, from itself (`acyclic`).

The object of interest is the chain `k, kdf k l, kdf (kdf k l) l, …` under one
label, with keys branching off each position under other labels.
-/

namespace Roomsync.Lib.Kdf

variable {κ ℓ : Type*}

def Derives (kdf : κ → ℓ → κ) (k k' : κ) : Prop := ∃ l, kdf k l = k'

/-- The keys that can be computed from those in `known` by applying `kdf`
under any label, and in no other way. -/
inductive Derivable (kdf : κ → ℓ → κ) (known : Set κ) : κ → Prop
  | known {k : κ} (hk : k ∈ known) : Derivable kdf known k
  | kdf {k : κ} (l : ℓ) (hk : Derivable kdf known k) :
      Derivable kdf known (kdf k l)

def Injective (kdf : κ → ℓ → κ) : Prop :=
  ∀ ⦃k k' l l'⦄, kdf k l = kdf k' l' → k = k' ∧ l = l'

/-- No two of these derivations, which a run may have made, give the same key. -/
def InjectiveOn (kdf : κ → ℓ → κ) (used : Set (κ × ℓ)) : Prop :=
  Set.InjOn (fun d => kdf d.1 d.2) used

/-- The free function: injective, and without derivation cycles. -/
structure Free (kdf : κ → ℓ → κ) : Prop where
  injective : Injective kdf
  acyclic : ∀ k, ¬ Relation.TransGen (Derives kdf) k k

variable {kdf : κ → ℓ → κ}

theorem Injective.on (h : Injective kdf) (used : Set (κ × ℓ)) : InjectiveOn kdf used := by
  intro d _ d' _ heq
  obtain ⟨hkey, hlabel⟩ := h heq
  exact Prod.ext hkey hlabel

theorem derivable_singleton_iff {k k' : κ} :
    Derivable kdf {k} k' ↔ Relation.ReflTransGen (Derives kdf) k k' := by
  constructor
  · intro h
    induction h with
    | known hk => rw [Set.mem_singleton_iff.mp hk]
    | kdf l _ ih => exact ih.tail ⟨l, rfl⟩
  · intro h
    induction h with
    | refl => exact .known rfl
    | tail _ hstep ih =>
        obtain ⟨l, rfl⟩ := hstep
        exact .kdf l ih

theorem acyclic_of_rank (rank : κ → ℕ) (h : ∀ k l, rank k < rank (kdf k l)) (k : κ) :
    ¬ Relation.TransGen (Derives kdf) k k := by
  have hlt : ∀ a b, Relation.TransGen (Derives kdf) a b → rank a < rank b := by
    intro a b hab
    induction hab with
    | single hstep =>
        obtain ⟨l, rfl⟩ := hstep
        exact h _ l
    | tail _ hstep ih =>
        obtain ⟨l, rfl⟩ := hstep
        exact ih.trans (h _ l)
  exact fun hk => lt_irrefl _ (hlt k k hk)

/-! ## Secrets

The keys that are not derived from a secret are closed under derivation, as long as nothing
leads to the secret itself.
-/

def Below (kdf : κ → ℓ → κ) (s k : κ) : Prop := Relation.ReflTransGen (Derives kdf) s k

/-- Who holds `known` holds nothing that is derived from `s`, and cannot compute `s`. -/
structure Hides (kdf : κ → ℓ → κ) (known : Set κ) (s : κ) : Prop where
  not_below : ∀ k ∈ known, ¬ Below kdf s k
  not_derivable : ¬ Derivable kdf known s

theorem Below.next {s k : κ} (h : Below kdf s k) (l : ℓ) : Below kdf s (kdf k l) :=
  h.tail ⟨l, rfl⟩

theorem Hides.not_derivable_of_below {known : Set κ} {s k : κ} (h : Hides kdf known s)
    (hinj : Injective kdf) (hk : Below kdf s k) : ¬ Derivable kdf known k := by
  intro hder
  induction hder with
  | known hknown => exact h.not_below _ hknown hk
  | kdf l hder ih =>
      rcases Relation.ReflTransGen.cases_tail hk with heq | ⟨k', hk', l', hl'⟩
      · exact h.not_derivable (heq ▸ .kdf l hder)
      · obtain ⟨rfl, -⟩ := hinj hl'
        exact ih hk'

/-! ## Paths

A path lists the labels applied on the way from one key to another.
-/

def derive (kdf : κ → ℓ → κ) (k : κ) (path : List ℓ) : κ := path.foldl kdf k

theorem derive_concat (k : κ) (path : List ℓ) (l : ℓ) :
    derive kdf k (path ++ [l]) = kdf (derive kdf k path) l := by
  unfold derive
  rw [List.foldl_append, List.foldl_cons, List.foldl_nil]

theorem derives_derive (k : κ) (path : List ℓ) :
    Relation.ReflTransGen (Derives kdf) k (derive kdf k path) := by
  induction path using List.reverseRecOn with
  | nil => exact .refl
  | append_singleton path l ih => exact ih.tail ⟨l, (derive_concat k path l).symm⟩

/-- The derivations that lead along a path: each label with the key it is applied to. -/
def steps (kdf : κ → ℓ → κ) (k : κ) (path : List ℓ) : Set (κ × ℓ) :=
  {d | ∃ before, before ++ [d.2] <+: path ∧ derive kdf k before = d.1}

theorem steps_subset_concat (kdf : κ → ℓ → κ) (k : κ) (path : List ℓ) (l : ℓ) :
    steps kdf k path ⊆ steps kdf k (path ++ [l]) := by
  rintro d ⟨before, hprefix, hkey⟩
  exact ⟨before, hprefix.trans (List.prefix_append _ _), hkey⟩

theorem last_mem_steps (kdf : κ → ℓ → κ) (k : κ) (path : List ℓ) (l : ℓ) :
    (derive kdf k path, l) ∈ steps kdf k (path ++ [l]) :=
  ⟨path, List.prefix_rfl, rfl⟩

/-- Two paths whose first labels do not come again on the other lead to different keys, as
long as the derivations on them do not collide. -/
theorem derive_inj_of_rooted {k : κ} {root root' : ℓ} {tail tail' : List ℓ}
    (hroot : root ∉ tail') (hroot' : root' ∉ tail)
    (hinj : InjectiveOn kdf (steps kdf k (root :: tail) ∪ steps kdf k (root' :: tail')))
    (h : derive kdf k (root :: tail) = derive kdf k (root' :: tail')) :
    root :: tail = root' :: tail' := by
  induction tail using List.reverseRecOn generalizing tail' with
  | nil =>
      have hlast := last_mem_steps kdf k [] root
      cases tail' using List.reverseRecOn with
      | nil =>
          have hlast' := last_mem_steps kdf k [] root'
          rw [(Prod.mk.inj (hinj (.inl hlast) (.inr hlast') h)).2]
      | append_singleton tail' l' =>
          have hlast' := last_mem_steps kdf k (root' :: tail') l'
          rw [← List.cons_append, derive_concat] at h
          obtain ⟨-, rfl⟩ := Prod.mk.inj (hinj (.inl hlast) (.inr hlast') h)
          exact absurd (List.mem_append_right _ List.mem_cons_self) hroot
  | append_singleton tail l ih =>
      have hlast := last_mem_steps kdf k (root :: tail) l
      cases tail' using List.reverseRecOn with
      | nil =>
          have hlast' := last_mem_steps kdf k [] root'
          rw [← List.cons_append, derive_concat] at h
          obtain ⟨-, rfl⟩ := Prod.mk.inj (hinj (.inl hlast) (.inr hlast') h)
          exact absurd (List.mem_append_right _ List.mem_cons_self) hroot'
      | append_singleton tail' l' =>
          have hlast' := last_mem_steps kdf k (root' :: tail') l'
          rw [← List.cons_append, ← List.cons_append, derive_concat, derive_concat] at h
          obtain ⟨hkey, rfl⟩ := Prod.mk.inj (hinj (.inl hlast) (.inr hlast') h)
          have hshorter := Set.union_subset_union
            (steps_subset_concat kdf k (root :: tail) l)
            (steps_subset_concat kdf k (root' :: tail') l)
          rw [← List.cons_append, ← List.cons_append,
            ih (fun hmem => hroot (List.mem_append_left _ hmem))
              (fun hmem => hroot' (List.mem_append_left _ hmem))
              (Set.InjOn.mono hshorter hinj) hkey]

theorem derive_concat_ne (hfree : Free kdf) (k : κ) (path : List ℓ) (l : ℓ) :
    derive kdf k (path ++ [l]) ≠ k := by
  rw [derive_concat]
  intro h
  exact hfree.acyclic k (.tail' (derives_derive k path) ⟨l, h⟩)

theorem derive_injective (hfree : Free kdf) (k : κ) :
    Function.Injective (derive kdf k) := by
  intro path path' h
  induction path using List.reverseRecOn generalizing path' with
  | nil =>
      cases path' using List.reverseRecOn with
      | nil => rfl
      | append_singleton path' l' => exact absurd h.symm (derive_concat_ne hfree k path' l')
  | append_singleton path l ih =>
      cases path' using List.reverseRecOn with
      | nil => exact absurd h (derive_concat_ne hfree k path l)
      | append_singleton path' l' =>
          rw [derive_concat, derive_concat] at h
          obtain ⟨hkey, rfl⟩ := hfree.injective h
          rw [ih hkey]

/-! ## Chains -/

def chain (kdf : κ → ℓ → κ) (l : ℓ) (n : ℕ) (k : κ) : κ := (fun k => kdf k l)^[n] k

theorem chain_succ (l : ℓ) (n : ℕ) (k : κ) :
    chain kdf l (n + 1) k = kdf (chain kdf l n k) l :=
  Function.iterate_succ_apply' _ _ _

theorem chain_add (l : ℓ) (m n : ℕ) (k : κ) :
    chain kdf l (m + n) k = chain kdf l m (chain kdf l n k) :=
  Function.iterate_add_apply _ _ _ _

theorem chain_derive (l : ℓ) (n : ℕ) (k : κ) (path : List ℓ) :
    chain kdf l n (derive kdf k path) = derive kdf k (path ++ List.replicate n l) := by
  induction n with
  | zero => rw [List.replicate_zero, List.append_nil]; rfl
  | succ n ih =>
      rw [chain_succ, ih, List.replicate_succ', ← List.append_assoc, derive_concat]

theorem chain_eq_derive (l : ℓ) (n : ℕ) (k : κ) :
    chain kdf l n k = derive kdf k (List.replicate n l) :=
  chain_derive l n k []

theorem derives_chain (l : ℓ) (n : ℕ) (k : κ) :
    Relation.ReflTransGen (Derives kdf) k (chain kdf l n k) := by
  rw [chain_eq_derive]
  exact derives_derive k _

theorem derivable_chain_of_le (l : ℓ) {m n : ℕ} (h : m ≤ n) (k : κ) :
    Derivable kdf {chain kdf l m k} (chain kdf l n k) := by
  rw [derivable_singleton_iff, ← Nat.sub_add_cancel h, chain_add]
  exact derives_chain l (n - m) _

section Injective

variable (hinj : Injective kdf)
include hinj

theorem chain_succ_ne {l l' : ℓ} (hl : l ≠ l') (n : ℕ) (k k' : κ) :
    chain kdf l (n + 1) k ≠ kdf k' l' := by
  rw [chain_succ]
  exact fun h => hl (hinj h).2

theorem chain_ne_chain {l : ℓ} {r r' : κ} (hr : r ≠ r')
    (hout : ∀ k, kdf k l ≠ r) (hout' : ∀ k, kdf k l ≠ r') (m n : ℕ) :
    chain kdf l m r ≠ chain kdf l n r' := by
  induction m generalizing n with
  | zero =>
      cases n with
      | zero => exact hr
      | succ n => rw [chain_succ]; exact (hout _).symm
  | succ m ih =>
      cases n with
      | zero => rw [chain_succ]; exact hout' _
      | succ n =>
          rw [chain_succ, chain_succ]
          exact fun h => ih n (hinj h).1

end Injective

section Free

variable (hfree : Free kdf)
include hfree

theorem not_derivable_chain_of_lt (l : ℓ) {m n : ℕ} (h : m < n) (k : κ) :
    ¬ Derivable kdf {chain kdf l n k} (chain kdf l m k) := by
  intro hder
  obtain ⟨d, rfl⟩ := Nat.exists_eq_add_of_lt h
  have hforward : Relation.TransGen (Derives kdf) (chain kdf l m k)
      (chain kdf l (m + d + 1) k) := by
    rw [show m + d + 1 = d + 1 + m by omega, chain_add, chain_succ]
    exact .tail' (derives_chain l d _) ⟨l, rfl⟩
  exact hfree.acyclic _ (hforward.trans_left (derivable_singleton_iff.mp hder))

theorem chain_injective (l : ℓ) (k : κ) :
    Function.Injective fun n => chain kdf l n k := by
  intro m n h
  have hpath : derive kdf k (List.replicate m l) = derive kdf k (List.replicate n l) := by
    rw [← chain_eq_derive, ← chain_eq_derive]
    exact h
  simpa using congrArg List.length (derive_injective hfree k hpath)

/-- A key that branches off position `m` is derivable from position `n` of
the chain exactly when `n` does not lie behind `m`. -/
theorem derivable_branch_iff {l b : ℓ} (hb : b ≠ l) (m n : ℕ) (k : κ) :
    Derivable kdf {chain kdf l n k} (kdf (chain kdf l m k) b) ↔ n ≤ m := by
  constructor
  · intro hder
    by_contra hlt
    push Not at hlt
    generalize htarget : kdf (chain kdf l m k) b = target at hder
    cases hder with
    | known hk =>
        -- The branch would itself be a chain position.
        obtain ⟨d, rfl⟩ := Nat.exists_eq_add_of_lt hlt
        rw [Set.mem_singleton_iff] at hk
        exact chain_succ_ne hfree.injective hb.symm (m + d) k _ (htarget.trans hk).symm
    | kdf l' hk =>
        obtain ⟨rfl, -⟩ := hfree.injective htarget
        exact not_derivable_chain_of_lt hfree l hlt k hk
  · intro hle
    exact .kdf b (derivable_chain_of_le l hle k)

end Free

end Roomsync.Lib.Kdf
