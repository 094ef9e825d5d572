/-
**Rules for the loops of `msg_send`.**

The loops of `msg_send_chain` are the same for clients and servers, and so is the way to reason
about them.  The first loop collects messages as long as the connection has a next one; the second
goes through the collected messages with the bytes that were written.  There is one rule for each,
with an invariant over what was collected, or what is left.

Main results:

* `Sender.chainMsgs_rule`, `Sender.finishMsgs_rule`, `Sender.msgSend_rule`.
-/

import CacheProxy.Sending

namespace CacheProxy

namespace Sender

variable {κ : Type} (S : Sender κ)

/-- **The first loop.**  `J` holds of the fuel, the state, the messages collected before, the one at
hand, the entries used and the bytes counted; `K` of the result. -/
theorem chainMsgs_rule (J : ℕ → Proxy κ → List ℕ → ℕ → ℕ → ℕ → Prop)
    (K : Proxy κ → List ℕ → ℕ → Prop)
    (halt : ∀ p ms m iov nsend, J 0 p ms m iov nsend → K p ms nsend)
    (full : ∀ fuel p ms m iov nsend, J (fuel + 1) p ms m iov nsend →
      iovMax ≤ (addIov (p.msgs m).con.mhdr iov nsend).1 →
      K p (ms ++ [m]) (addIov (p.msgs m).con.mhdr iov nsend).2)
    (last : ∀ fuel p ms m iov nsend, J (fuel + 1) p ms m iov nsend → (S.next p).2 = none →
      (addIov (p.msgs m).con.mhdr iov nsend).1 < iovMax →
      K (S.next p).1 (ms ++ [m]) (addIov (p.msgs m).con.mhdr iov nsend).2)
    (more : ∀ fuel p ms m iov nsend m', J (fuel + 1) p ms m iov nsend → (S.next p).2 = some m' →
      (addIov (p.msgs m).con.mhdr iov nsend).1 < iovMax →
      J fuel (S.next p).1 (ms ++ [m]) m' (addIov (p.msgs m).con.mhdr iov nsend).1
        (addIov (p.msgs m).con.mhdr iov nsend).2)
    (fuel : ℕ) (p : Proxy κ) (ms : List ℕ) (m iov nsend : ℕ) (h : J fuel p ms m iov nsend) :
    K (S.chainMsgs fuel p m iov nsend ms).1 (S.chainMsgs fuel p m iov nsend ms).2.1
      (S.chainMsgs fuel p m iov nsend ms).2.2 := by
  induction fuel generalizing p ms m iov nsend with
  | zero => exact halt p ms m iov nsend h
  | succ fuel ih =>
    unfold chainMsgs
    dsimp only
    split
    · rename_i hfull
      exact full fuel p ms m iov nsend h hfull
    · rename_i hroom
      rw [not_le] at hroom
      have hlast := last fuel p ms m iov nsend h
      have hmore := more fuel p ms m iov nsend
      revert hlast hmore
      rcases S.next p with ⟨p', _ | m'⟩
      · intro hlast _
        exact hlast rfl hroom
      · intro _ hmore
        exact ih p' _ m' _ _ (hmore m' h rfl hroom)

/-- **The second loop.**  `I` holds of the state, the messages that stay, those still to be looked
at, and the bytes left. -/
theorem finishMsgs_rule (I : Proxy κ → List ℕ → List ℕ → ℕ → Prop)
    (bare : ∀ p l m ms, I p l (m :: ms) 0 → (p.msgs m).con.mlen = 0 → I (S.done p m) l ms 0)
    (stay : ∀ p l m ms, I p l (m :: ms) 0 → (p.msgs m).con.mlen ≠ 0 → I p (l ++ [m]) ms 0)
    (sent : ∀ p l m ms n, I p l (m :: ms) n → n ≠ 0 → (consume (p.msgs m).con.mhdr n).2.2 = true →
      I (S.done (S.sent (S.sendBytes p m n) m) m) l ms (consume (p.msgs m).con.mhdr n).2.1)
    (part : ∀ p l m ms n, I p l (m :: ms) n → n ≠ 0 → (consume (p.msgs m).con.mhdr n).2.2 = false →
      I (S.sendBytes p m n) (l ++ [m]) ms 0)
    (ms : List ℕ) (p : Proxy κ) (l : List ℕ) (n : ℕ) (h : I p l ms n) :
    ∃ l' n', I (S.finishMsgs p ms n) l' [] n' := by
  induction ms generalizing p l n with
  | nil => exact ⟨l, n, h⟩
  | cons m ms ih =>
    unfold finishMsgs
    split
    · rename_i hn
      subst hn
      split
      · rename_i hlen
        exact ih _ l 0 (bare p l m ms h hlen)
      · rename_i hlen
        exact ih _ _ 0 (stay p l m ms h hlen)
    · rename_i hn
      dsimp only
      split
      · rename_i hr
        exact ih _ l _ (sent p l m ms n h hn hr)
      · rename_i hr
        exact ih _ _ 0 (part p l m ms n h hn (by simpa using hr))

/-- **`msg_send`.**  `I` holds before each round, `F` at the end. -/
theorem msgSend_rule (fuel : Proxy κ → ℕ) (I F : Proxy κ → Prop) (ended : ∀ p, I p → F p)
    (last : ∀ p, I p → (S.next p).2 = none → F (S.next p).1)
    (round : ∀ p m w, I p → (S.next p).2 = some m →
      I (S.msgSendChain (fuel (S.next p).1) (S.next p).1 m w).1)
    (ws : List WriteResult) (p : Proxy κ) (h : I p) : F (S.msgSend fuel p ws) := by
  induction ws generalizing p with
  | nil => exact ended p h
  | cons w ws ih =>
    unfold msgSend
    have hlast := last p h
    have hround := fun m => round p m w h
    revert hlast hround
    rcases S.next p with ⟨p', _ | m⟩
    · intro hlast _
      exact hlast rfl
    · intro _ hround
      dsimp only
      split
      · exact ih _ (hround m rfl)
      · exact ended _ (hround m rfl)

end Sender

end CacheProxy
