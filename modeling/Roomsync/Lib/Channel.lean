import Mathlib.Tactic.Basic
/-!
# Channels

A channel of the standard library with one sender and one receiver: what was sent is
received in order, also after the sender is dropped.
-/

namespace Roomsync.Lib

inductive TryRecvError where
  | empty
  | disconnected
deriving DecidableEq

structure Channel (α : Type*) where
  queue : List α
  sender : Bool
  receiver : Bool

namespace Channel

variable {α : Type*}

def new : Channel α := ⟨[], true, true⟩

/-- It gives the message back once the receiver is dropped. -/
def send (c : Channel α) (message : α) : Except α (Channel α) :=
  if c.receiver then .ok { c with queue := c.queue ++ [message] } else .error message

def tryRecv (c : Channel α) : Except TryRecvError α × Channel α :=
  match c.queue with
  | message :: queue => (.ok message, { c with queue })
  | [] => (.error (if c.sender then .empty else .disconnected), c)

def dropSender (c : Channel α) : Channel α := { c with sender := false }

def dropReceiver (c : Channel α) : Channel α := { c with receiver := false }

theorem tryRecv_of_nil {c : Channel α} (h : c.queue = []) :
    c.tryRecv = (.error (if c.sender then .empty else .disconnected), c) := by
  unfold tryRecv
  rw [h]

theorem tryRecv_of_cons {c : Channel α} {message : α} {queue : List α}
    (h : c.queue = message :: queue) : c.tryRecv = (.ok message, { c with queue }) := by
  unfold tryRecv
  rw [h]

@[simp] theorem queue_dropSender (c : Channel α) : c.dropSender.queue = c.queue := rfl

theorem send_eq_ok {c : Channel α} (h : c.receiver = true) (message : α) :
    c.send message = .ok { c with queue := c.queue ++ [message] } :=
  if_pos h

end Channel

end Roomsync.Lib
