import Roomsync.Encryption.Signal.Session
import Roomsync.Lib.Run
/-!
# What a stored chain key reveals

An attacker who reads `chain_key` out of a ratchet can apply HKDF to it, under
any salt and info, and to whatever comes out of that.
-/

namespace Roomsync.Encryption.Signal

open Roomsync.Lib

namespace DoubleRatchetSession

def messageKeys (kdf : HKDF) (s : DoubleRatchetSession) (n : ℕ) :
    List Bytes × DoubleRatchetSession :=
  run (fun s (_ : Unit) => s.nextMessageKey kdf) s (List.replicate n ())

variable {kdf : HKDF}

theorem chainKey_messageKeys (s : DoubleRatchetSession) (n : ℕ) :
    (s.messageKeys kdf n).2.chainKey = chainKeyAt kdf s.chainKey n := by
  unfold messageKeys
  induction n generalizing s with
  | zero => rfl
  | succ n ih =>
      calc
        (run (fun s (_ : Unit) => s.nextMessageKey kdf) s (List.replicate (n + 1) ())).2.chainKey
          = (run (fun s (_ : Unit) => s.nextMessageKey kdf) (s.advance kdf)
              (List.replicate n ())).2.chainKey := rfl
        _ = chainKeyAt kdf (chainKeyAt kdf s.chainKey 1) n := ih _
        _ = chainKeyAt kdf s.chainKey (n + 1) := (Kdf.chain_add _ n 1 _).symm

theorem getElem?_messageKeys (s : DoubleRatchetSession) {n j : ℕ} (hj : j < n) :
    (s.messageKeys kdf n).1[j]? = some (messageKeyAt kdf s.chainKey j) := by
  have hprefix : (List.replicate n ()).take j = List.replicate j () := by
    rw [List.take_replicate, Nat.min_eq_left hj.le]
  have hstate : (run (fun s (_ : Unit) => s.nextMessageKey kdf) s
      (List.replicate j ())).2.chainKey = chainKeyAt kdf s.chainKey j :=
    chainKey_messageKeys s j
  unfold messageKeys
  rw [getElem?_run, hprefix, List.getElem?_replicate_of_lt hj]
  dsimp only [Option.map_some]
  rw [nextMessageKey_eq, messageKeyAt_of_chainKey kdf hstate]

/-- After `n` calls the stored chain key hides all returned keys but the last. -/
theorem returned_key_hidden_iff (hfree : Kdf.Free kdf) (chainKey : Bytes) (n j : ℕ)
    (hj : j < n) (key : Bytes)
    (hkey : ((DoubleRatchetSession.mk chainKey 0).messageKeys kdf n).1[j]? = some key) :
    ¬ Kdf.Derivable kdf {((DoubleRatchetSession.mk chainKey 0).messageKeys kdf n).2.chainKey} key ↔
      j + 1 < n := by
  rw [getElem?_messageKeys _ hj] at hkey
  obtain rfl := Option.some.inj hkey
  rw [chainKey_messageKeys]
  unfold messageKeyAt chainKeyAt
  rw [Kdf.derivable_branch_iff hfree msgParams_ne_chainParams, Nat.not_le]

theorem last_key_derivable :
    ¬ ∀ key, ((DoubleRatchetSession.mk [1] 0).messageKeys symbolicHkdf 1).1[0]? = some key →
      ¬ Kdf.Derivable symbolicHkdf
        {((DoubleRatchetSession.mk [1] 0).messageKeys symbolicHkdf 1).2.chainKey} key := by
  intro h
  exact h _ rfl (.kdf msgParams (.known rfl))

theorem returned_key_hidden_iff_symbolic :
    ¬ Kdf.Derivable symbolicHkdf
        {((DoubleRatchetSession.mk [1] 0).messageKeys symbolicHkdf 2).2.chainKey}
        (messageKeyAt symbolicHkdf [1] 0) ↔
      0 + 1 < 2 :=
  returned_key_hidden_iff symbolicHkdf_free [1] 2 0 (by decide) _
    (getElem?_messageKeys _ (by decide))

end DoubleRatchetSession

end Roomsync.Encryption.Signal
