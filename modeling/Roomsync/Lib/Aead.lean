import Mathlib.Data.Set.Defs
/-!
# Authenticated encryption, seen from outside

`Aead` is the interface of an authenticated cipher over arbitrary keys, nonces,
messages and ciphertexts.  Correctness is a law of the two functions.  Security
is not (for most ciphers some other key opens a given ciphertext), so it is
stated about the calls that a run really makes: `Authentic` about one call to
`decrypt` and the encryptions made so far, `Separates` about the keys in use.
-/

namespace Roomsync.Lib

structure Aead (κ ν δ γ : Type*) where
  encrypt : κ → ν → δ → γ
  /-- `none` is the authentication failure. -/
  decrypt : κ → ν → γ → Option δ

structure Sealing (κ ν δ γ : Type*) where
  key : κ
  nonce : ν
  data : δ
  ciphertext : γ

namespace Aead

variable {κ ν δ γ : Type*} (A : Aead κ ν δ γ)

def Correct : Prop := ∀ k n d, A.decrypt k n (A.encrypt k n d) = some d

def sealing (key : κ) (nonce : ν) (data : δ) : Sealing κ ν δ γ :=
  ⟨key, nonce, data, A.encrypt key nonce data⟩

/-- The call `decrypt key nonce ciphertext` accepts only what was encrypted
before: a result it returns is the message of an encryption in `log` with that
key, that nonce and that ciphertext. -/
def Authentic (log : List (Sealing κ ν δ γ)) (key : κ) (nonce : ν)
    (ciphertext : γ) : Prop :=
  ∀ data, A.decrypt key nonce ciphertext = some data →
    ⟨key, nonce, data, ciphertext⟩ ∈ log

/-- What is encrypted under one key of `keys` does not open under another. -/
def Separates (keys : Set κ) : Prop :=
  ∀ k ∈ keys, ∀ k' ∈ keys, k ≠ k' → ∀ n d, A.decrypt k' n (A.encrypt k n d) = none

variable {A}

theorem Correct.authentic (h : A.Correct) {log : List (Sealing κ ν δ γ)} {key : κ}
    {nonce : ν} {data : δ} (hmem : A.sealing key nonce data ∈ log) :
    A.Authentic log key nonce (A.encrypt key nonce data) := by
  intro data' hdata'
  rw [h] at hdata'
  obtain rfl := Option.some.inj hdata'
  exact hmem

theorem Authentic.of_eq_none {log : List (Sealing κ ν δ γ)} {key : κ} {nonce : ν}
    {ciphertext : γ} (h : A.decrypt key nonce ciphertext = none) :
    A.Authentic log key nonce ciphertext := by
  intro data hdata
  rw [h] at hdata
  exact absurd hdata (by simp)

theorem Authentic.eq_none {log : List (Sealing κ ν δ γ)} {key : κ} {nonce : ν}
    {ciphertext : γ} (h : A.Authentic log key nonce ciphertext)
    (hkey : ∀ s ∈ log, s.key ≠ key) : A.decrypt key nonce ciphertext = none := by
  rw [Option.eq_none_iff_forall_ne_some]
  intro data hdata
  exact hkey _ (h data hdata) rfl

end Aead

end Roomsync.Lib
