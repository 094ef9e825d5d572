/-
**A client connection: nothing is read behind a `QUIT`.**

`req_filter` sets `conn->eof` when it is handed a `QUIT`.  From then on `req_recv_next` frees the
message that was split off behind it and gives none, so that the loop of `msg_recv_chain` ends and
`msg_recv` reads no more.  As long as there was no `QUIT` the connection does what `Receive` says.

Main definitions:

* `Receiver.eof` — `conn->eof`;
* `clientRun` — a whole run of a client connection over the chunks in which a stream arrives.

Main results:

* `clientRecvChain_eq` — a read that brings no `QUIT` is one of `Receive`;
* `clientRun_tracks` — at most the last message that was handed on is a `QUIT`, and no more was
  handed on and dropped than had arrived;
* `clientRun_going` — **the frames of a stream are delivered, up to a `QUIT`**.
-/

import CacheProxy.FirstFrame

namespace CacheProxy

variable {ρ : Type}

/-! ### The functions -/

/-- `conn->eof`: `req_filter` sets it when it is handed a `QUIT`, and nothing clears it. -/
def Receiver.eof (quits : ρ → Bool) (c : Receiver ρ) : Bool := c.received.any fun m => quits m.regs

/-- The loop at the end of `msg_recv_chain`, with `req_recv_next`. -/
def clientLoop (P : Parser ρ) (quits : ρ → Bool) (size : ℕ) :
    ℕ → Receiver ρ → RecvMsg ρ → Receiver ρ
  | 0, c, _ => { c with status := .hang }
  | fuel + 1, c, msg =>
      match msgParse P size c msg with
      | (c', go) =>
          -- `req_recv_next` frees what was split off and gives no message
          if c'.eof quits then { c' with rmsg := none }
          else
            match go, c'.rmsg with
            | true, some nmsg => clientLoop P quits size fuel c' nmsg
            | _, _ => c'

/-- `msg_recv_chain` of a client connection; `req_filter` also clears `recv_ready`. -/
def clientRecvChain (P : Parser ρ) (quits : ρ → Bool) (size : ℕ) (c : Receiver ρ)
    (avail : List Byte) : Receiver ρ × List Byte × Bool :=
  let (c, msg) := withMbuf size c (recvNext P c)
  if avail = [] then ({ c with rmsg := some msg }, [], false)
  else
    let room := recvRoom size msg
    let bs := avail.take room
    let msg' := recvBytes msg bs
    let c' := { c with reads := c.reads ++ [msg.mlen + bs.length] }
    let c'' := clientLoop P quits size (msg'.bytes.length + 1) c' msg'
    (c'', avail.drop room, decide (room ≤ avail.length) && !c''.eof quits)

/-- `msg_recv` of a client connection. -/
def clientRecv (P : Parser ρ) (quits : ρ → Bool) (size : ℕ) :
    ℕ → Receiver ρ → List Byte → Receiver ρ
  | 0, c, _ => c
  | fuel + 1, c, avail =>
      match c.status with
      | .ok =>
          if c.eof quits then { c with rmsg := none }
          else
            match clientRecvChain P quits size c avail with
            | (c', rest, true) => clientRecv P quits size fuel c' rest
            | (c', _, false) => c'
      | _ => c

/-- **A whole run of a client connection.** -/
def clientRun (P : Parser ρ) (quits : ρ → Bool) (size : ℕ) (chunks : List (List Byte)) :
    Receiver ρ :=
  chunks.foldl (fun c chunk => clientRecv P quits size (chunk.length + 1) c chunk) {}

section Steps

variable {P : Parser ρ} {quits : ρ → Bool} {size : ℕ}

theorem clientRun_concat (P : Parser ρ) (quits : ρ → Bool) (size : ℕ) (xs : List (List Byte))
    (y : List Byte) : clientRun P quits size (xs ++ [y]) =
      clientRecv P quits size (y.length + 1) (clientRun P quits size xs) y := by
  simp [clientRun]

/-! ### One parser call -/

/-- A parser call hands on one message, or none. -/
theorem msgParse_received_cases (P : Parser ρ) (size : ℕ) (c : Receiver ρ) (msg : RecvMsg ρ) :
    (msgParse P size c msg).1.received = c.received ∨
      msgEmpty msg.toMsgBuf = false ∧ (msgParse P size c msg).1.status = c.status ∧
        ∃ m, (msgParse P size c msg).1.received = c.received ++ [m] := by
  unfold msgParse
  split
  · exact .inl rfl
  · next hemp =>
    split
    · exact .inl rfl
    · split
      · unfold msgParsed
        split
        · exact .inl rfl
        · split <;> exact .inr ⟨by simpa using hemp, rfl, _, rfl⟩
      · exact .inl (msgRepair_received c _)
      · exact .inl rfl
      · exact .inl rfl

/-- A parser call that hands on a `QUIT`. -/
theorem msgParse_eof {c : Receiver ρ} {msg : RecvMsg ρ} (hc : c.eof quits = false)
    (h : (msgParse P size c msg).1.eof quits = true) :
    msgEmpty msg.toMsgBuf = false ∧ (msgParse P size c msg).1.status = c.status ∧
      (msgParse P size c msg).1.received.dropLast = c.received := by
  rcases msgParse_received_cases P size c msg with heq | ⟨hemp, hst, m, heq⟩
  · rw [Receiver.eof, heq] at h
    cases hc.symm.trans h
  · exact ⟨hemp, hst, by rw [heq, List.dropLast_concat]⟩

/-- The loop goes on with the status it had. -/
theorem msgParse_go {c : Receiver ρ} {msg : RecvMsg ρ} (h : (msgParse P size c msg).2 = true) :
    (msgParse P size c msg).1.status = c.status := by
  unfold msgParse at h ⊢
  split at h
  · cases h
  · next hemp =>
    rw [if_neg hemp]
    split at h
    · cases h
    · next b hb =>
      split at h
      · simp only [msgParsed, hb]
        split <;> rfl
      · cases h
      · cases h
      · cases h

/-! ### The loop -/

/-- **How the connection stands behind a `QUIT`**, beside one that went on from `c` to `r`. -/
structure Ended (quits : ρ → Bool) (c k r : Receiver ρ) : Prop where
  status : k.status = c.status
  rmsg : k.rmsg = none
  reads : k.reads = r.reads
  received : k.received <+: r.received
  early : ∀ m ∈ k.received.dropLast, quits m.regs = false

/-- One turn of the loop, beside one of a connection that knows no `QUIT`. -/
theorem clientLoop_succ (P : Parser ρ) (quits : ρ → Bool) (size fuel : ℕ) (c : Receiver ρ)
    (msg : RecvMsg ρ) {c' : Receiver ρ} {go : Bool} (hres : msgParse P size c msg = (c', go)) :
    c'.eof quits = true ∧ clientLoop P quits size (fuel + 1) c msg = { c' with rmsg := none } ∧
      c'.received <+: (parseLoop P size (fuel + 1) c msg).received ∨
    c'.eof quits = false ∧
      (clientLoop P quits size (fuel + 1) c msg = c' ∧ parseLoop P size (fuel + 1) c msg = c' ∨
      go = true ∧ ∃ nmsg, c'.rmsg = some nmsg ∧
        clientLoop P quits size (fuel + 1) c msg = clientLoop P quits size fuel c' nmsg ∧
        parseLoop P size (fuel + 1) c msg = parseLoop P size fuel c' nmsg) := by
  rw [clientLoop, parseLoop, hres]
  cases go with
  | false => cases heof : c'.eof quits <;> simp [heof]
  | true =>
      cases hr : c'.rmsg with
      | none => cases heof : c'.eof quits <;> simp [heof, hr]
      | some => cases heof : c'.eof quits <;> simp [heof, hr, parseLoop_received]

theorem clientLoop_eq {fuel : ℕ} {c : Receiver ρ} {msg : RecvMsg ρ}
    (h : (clientLoop P quits size fuel c msg).eof quits = false) :
    clientLoop P quits size fuel c msg = parseLoop P size fuel c msg := by
  induction fuel generalizing c msg with
  | zero => rfl
  | succ fuel ih =>
      rcases clientLoop_succ P quits size fuel c msg (Prod.eta _).symm with
        ⟨heof, hc, -⟩ | ⟨-, ⟨hc, hp⟩ | ⟨-, nmsg, -, hc, hp⟩⟩
      · rw [hc] at h
        cases heof.symm.trans h
      · rw [hc, hp]
      · rw [hc] at h ⊢
        rw [hp, ih h]

theorem clientLoop_ended {fuel : ℕ} {c : Receiver ρ} {msg : RecvMsg ρ} (hc : c.eof quits = false)
    (h : (clientLoop P quits size fuel c msg).eof quits = true) :
    Ended quits c (clientLoop P quits size fuel c msg) (parseLoop P size fuel c msg) := by
  induction fuel generalizing c msg with
  | zero => cases hc.symm.trans h
  | succ fuel ih =>
      have hreads := parseLoop_reads P size (fuel + 1) c msg
      rcases clientLoop_succ P quits size fuel c msg (Prod.eta _).symm with
        ⟨heof, hl, hpre⟩ | ⟨hc', ⟨hl, -⟩ | ⟨hgo, nmsg, -, hl, hp⟩⟩
      · obtain ⟨-, hst, hlast⟩ := msgParse_eof hc heof
        rw [hl]
        exact ⟨hst, rfl, (msgParse_reads P size c msg).trans hreads.symm, hpre,
          fun m hm => by simpa using List.any_eq_false.1 hc m (hlast ▸ hm)⟩
      · rw [hl] at h
        cases hc'.symm.trans h
      · rw [hl] at h ⊢
        rw [hp]
        have hend := ih hc' h
        exact { hend with status := hend.status.trans (msgParse_go hgo) }

/-- What the loop hands on and drops is not more than what it was given. -/
theorem clientLoop_account {fuel : ℕ} {c : Receiver ρ} {msg : RecvMsg ρ} (hc : c.eof quits = false)
    (hu : Filling size msg.mhdr) (hne : msg.mhdr ≠ [])
    (h : (clientLoop P quits size fuel c msg).eof quits = true) :
    msgEmpty msg.toMsgBuf = false ∧ c.dropped <+: (clientLoop P quits size fuel c msg).dropped ∧
      (clientLoop P quits size fuel c msg).settled ≤ c.settled + msg.bytes.length := by
  induction fuel generalizing c msg with
  | zero => cases hc.symm.trans h
  | succ fuel ih =>
      obtain ⟨hall, hdrop⟩ := msgParse_allOf P c hu hne
      have hacc := hall.account
      rcases clientLoop_succ P quits size fuel c msg (Prod.eta _).symm with
        ⟨heof, hl, -⟩ | ⟨hc', ⟨hl, -⟩ | ⟨hgo, nmsg, hr, hl, -⟩⟩
      · obtain ⟨hemp, -⟩ := msgParse_eof hc heof
        rw [if_neg (by simp [hemp])] at hdrop
        rw [hl]
        refine ⟨hemp, hdrop ▸ List.prefix_rfl, ?_⟩
        change (msgParse P size c msg).1.settled ≤ _
        omega
      · rw [hl] at h
        cases hc'.symm.trans h
      · have hemp : msgEmpty msg.toMsgBuf = false := by
          by_contra hemp
          rw [msgParse_of_empty (by simpa using hemp)] at hgo
          cases hgo
        rw [if_neg (by simp [hemp])] at hdrop
        rw [hl] at h ⊢
        obtain ⟨hun, hnen⟩ := hall.filling nmsg hr
        obtain ⟨-, hpre, hle⟩ := ih hc' hun hnen h
        rw [Receiver.pending, hr] at hacc
        exact ⟨hemp, hdrop ▸ hpre, hle.trans (by simpa using hacc.le)⟩

/-! ### One read -/

theorem withMbuf_received (size : ℕ) (c : Receiver ρ) (msg : RecvMsg ρ) :
    (withMbuf size c msg).1.received = c.received := by
  unfold withMbuf
  split <;> rfl

theorem withMbuf_status (size : ℕ) (c : Receiver ρ) (msg : RecvMsg ρ) :
    (withMbuf size c msg).1.status = c.status := by
  unfold withMbuf
  split <;> rfl

theorem clientRecvChain_eq {c : Receiver ρ} {avail : List Byte}
    (h : (clientRecvChain P quits size c avail).1.eof quits = false) :
    clientRecvChain P quits size c avail = msgRecvChain P size c avail := by
  unfold clientRecvChain at h ⊢
  unfold msgRecvChain
  dsimp only at h ⊢
  split at h
  · next hav => simp only [if_pos hav]
  · next hav =>
    simp only [if_neg hav]
    have heq := clientLoop_eq h
    rw [heq] at h ⊢
    rw [h, Bool.not_false, Bool.and_true]

theorem clientRecvChain_ended {c : Receiver ρ} {avail : List Byte} (hc : c.eof quits = false)
    (h : (clientRecvChain P quits size c avail).1.eof quits = true) :
    (clientRecvChain P quits size c avail).2.2 = false ∧
      Ended quits c (clientRecvChain P quits size c avail).1 (msgRecvChain P size c avail).1 := by
  have hrec := withMbuf_received size c (recvNext P c)
  have hst := withMbuf_status size c (recvNext P c)
  unfold clientRecvChain at h ⊢
  unfold msgRecvChain
  dsimp only at h ⊢
  split at h
  · next hav =>
    rw [Receiver.eof] at h hc
    simp only [hrec] at h
    cases hc.symm.trans h
  · next hav =>
    simp only [if_neg hav]
    have hend := clientLoop_ended (by simpa [Receiver.eof, hrec] using hc) h
    exact ⟨by rw [h, Bool.not_true, Bool.and_false], { hend with status := hend.status.trans hst }⟩

/-- **A read that brings a `QUIT`**: its bytes were not dropped, and no more was handed on than had
arrived. -/
theorem clientRecvChain_account {c : Receiver ρ} {n : ℕ} {avail : List Byte} (hsize : 0 < size)
    (htracks : Tracks size c n) (hc : c.eof quits = false)
    (h : (clientRecvChain P quits size c avail).1.eof quits = true) :
    (clientRecvChain P quits size c avail).1.settled ≤ n + avail.length ∧
      ((∃ x ∈ (clientRecvChain P quits size c avail).1.reads, wrap32 x = 0) →
        (clientRecvChain P quits size c avail).1.dropped ≠ []) := by
  obtain ⟨pre, b, hm, hfill, hroom, hpend, hcw⟩ := withMbuf_spec (P := P) hsize htracks.toAllOf
  obtain ⟨hpre, hb⟩ := filling_append.1 hfill
  obtain ⟨hgone, hfit⟩ := filling_singleton.1 hb
  have hreads := (clientRecvChain_ended hc h).2.reads
  generalize hw : withMbuf size c (recvNext P c) = w at hm hcw
  obtain ⟨c₁, msg⟩ := w
  have hsame : c₁.settled = c.settled ∧ c₁.dropped = c.dropped ∧ c₁.reads = c.reads ∧
      c₁.received = c.received := by
    rcases hcw with hcw | hcw <;> rw [show c₁ = _ from hcw] <;> exact ⟨rfl, rfl, rfl, rfl⟩
  obtain ⟨hsettled, hdropped, hread₁, hrec⟩ := hsame
  simp only at hm
  unfold clientRecvChain msgRecvChain at hreads
  unfold clientRecvChain at h ⊢
  simp only [hw] at h hreads ⊢
  by_cases hav : avail = []
  · simp only [if_pos hav, Receiver.eof, hrec] at h hc
    cases hc.symm.trans h
  · simp only [if_neg hav] at h hreads ⊢
    have hr : recvRoom size msg = size - b.body.length := recvRoom_eq hm hgone
    set room := recvRoom size msg
    have hlen : (avail.take room).length = min room avail.length := List.length_take
    have hm' : (recvBytes msg (avail.take room)).mhdr = pre ++ [mbufCopy b (avail.take room)] :=
      recvBytes_mhdr hm _
    have hbytes : (recvBytes msg (avail.take room)).bytes = c.pending ++ avail.take room := by
      rw [MsgBuf.bytes, hm', ← hpend]
      simp
    have hfill' : Filling size (recvBytes msg (avail.take room)).mhdr := by
      rw [hm', filling_append, filling_singleton]
      refine ⟨hpre, hgone, ?_⟩
      rw [mbufCopy_body, List.length_append]
      omega
    obtain ⟨hemp, hdrop, hle⟩ := clientLoop_account (by simpa [Receiver.eof, hrec] using hc) hfill'
      (by rw [hm']; simp) h
    have hacc := htracks.account
    refine ⟨?_, ?_⟩
    · refine hle.trans ?_
      change c₁.settled + _ ≤ _
      rw [hbytes, hsettled, List.length_append]
      omega
    · rw [hreads, parseLoop_reads]
      rintro ⟨x, hx, hzero⟩
      have hx' : x ∈ c.reads ∨ x = msg.mlen + (avail.take room).length := by
        simpa [hread₁] using hx
      rcases hx' with hx' | rfl
      · -- an earlier read: what it dropped is still dropped
        intro hnil
        rw [hnil] at hdrop
        exact htracks.wrapped ⟨x, hx', hzero⟩ (hdropped ▸ List.prefix_nil.1 hdrop)
      · -- this read: the message would have been taken for empty
        exact absurd (show msgEmpty (recvBytes msg (avail.take room)).toMsgBuf = true by
          simpa [msgEmpty, recvBytes] using hzero) (by simp [hemp])

/-! ### Whole runs -/

/-- What a run of a client connection keeps track of. -/
structure ClientTracks (quits : ρ → Bool) (size : ℕ) (c : Receiver ρ) (n : ℕ) : Prop where
  going : c.eof quits = false → c.status = .ok → Tracks size c n
  rmsg : c.eof quits = true → c.rmsg = none
  settled : c.eof quits = true → c.settled ≤ n
  wrapped : c.eof quits = true → (∃ x ∈ c.reads, wrap32 x = 0) → c.dropped ≠ []
  early : ∀ m ∈ c.received.dropLast, quits m.regs = false

theorem clientRecv_tracks {fuel : ℕ} {c : Receiver ρ} {n : ℕ} {avail : List Byte} (hsize : 0 < size)
    (h : ClientTracks quits size c n) (hfuel : avail.length < fuel) :
    ClientTracks quits size (clientRecv P quits size fuel c avail) (n + avail.length) := by
  induction fuel generalizing c n avail with
  | zero => omega
  | succ fuel ih =>
      rw [clientRecv]
      have hfailed (hst : c.status ≠ .ok) : ClientTracks quits size c (n + avail.length) :=
        ⟨fun _ hok => absurd hok hst, h.rmsg, fun heof => (h.settled heof).trans (by omega),
          h.wrapped, h.early⟩
      cases hst : c.status with
      | error | hang => exact hfailed (by simp [hst])
      | ok =>
          simp only
          cases hc : c.eof quits with
          | true =>
              rw [if_pos rfl]
              exact ⟨fun hopen => absurd (hc.symm.trans hopen) (by simp), fun _ => rfl,
                fun heof => (h.settled heof).trans (by omega), h.wrapped, h.early⟩
          | false =>
              rw [if_neg (by simp)]
              obtain ⟨k, hrest, hk, hready, hlast, htrack⟩ :=
                msgRecvChain_tracks P avail hsize (h.going hc hst)
              cases heof : (clientRecvChain P quits size c avail).1.eof quits with
              | true =>
                  obtain ⟨hflag, hend⟩ := clientRecvChain_ended hc heof
                  obtain ⟨hle, hwrapped⟩ := clientRecvChain_account hsize (h.going hc hst) hc heof
                  generalize clientRecvChain P quits size c avail =
                    res at heof hflag hend hle hwrapped ⊢
                  obtain ⟨c', rest, ready⟩ := res
                  cases hflag
                  exact ⟨fun hopen => absurd (heof.symm.trans hopen) (by simp), fun _ => hend.rmsg,
                    fun _ => hle, fun _ => hwrapped, hend.early⟩
              | false =>
                  have heq := clientRecvChain_eq heof
                  rw [heq] at heof ⊢
                  generalize msgRecvChain P size c avail = res at heof hrest hready hlast htrack ⊢
                  obtain ⟨c', rest, ready⟩ := res
                  simp only at heof hrest hready hlast htrack ⊢
                  have hnone : ∀ m ∈ c'.received, quits m.regs = false := fun m hm => by
                    simpa using List.any_eq_false.1 heof m hm
                  have hnext (n' : ℕ) (hn : c'.status = .ok → Tracks size c' n') :
                      ClientTracks quits size c' n' :=
                    ⟨fun _ => hn, fun hyes => absurd (heof.symm.trans hyes) (by simp),
                      fun hyes => absurd (heof.symm.trans hyes) (by simp),
                      fun hyes => absurd (heof.symm.trans hyes) (by simp),
                      fun m hm => hnone m (List.dropLast_subset _ hm)⟩
                  cases ready with
                  | true =>
                      have hk' := hready rfl
                      have hlen : rest.length = avail.length - k := by rw [hrest, List.length_drop]
                      have hrun := ih (hnext (n + k) htrack) (show rest.length < fuel by omega)
                      rwa [hlen, show n + k + (avail.length - k) =
                        n + avail.length by omega] at hrun
                  | false =>
                      rw [← hlast rfl]
                      exact hnext _ htrack

theorem clientRun_tracks (P : Parser ρ) (quits : ρ → Bool) (hsize : 0 < size)
    (chunks : List (List Byte)) :
    ClientTracks quits size (clientRun P quits size chunks) chunks.flatten.length := by
  induction chunks using List.reverseRecOn with
  | nil => exact ⟨fun _ _ => ⟨⟨by simp [clientRun], rfl⟩, by simp [clientRun]⟩, by simp [clientRun],
      by simp [clientRun, Receiver.eof], by simp [clientRun], by simp [clientRun]⟩
  | append_singleton chunks chunk ih =>
      rw [clientRun_concat]
      simpa using clientRecv_tracks hsize ih (Nat.lt_succ_self _)

theorem clientRecv_reads (P : Parser ρ) (quits : ρ → Bool) (size fuel : ℕ) (c : Receiver ρ)
    (avail : List Byte) : c.reads <+: (clientRecv P quits size fuel c avail).reads := by
  induction fuel generalizing c avail with
  | zero => exact List.prefix_rfl
  | succ fuel ih =>
      rw [clientRecv]
      split
      · cases hc : c.eof quits with
        | true => exact List.prefix_rfl
        | false =>
            rw [if_neg (by simp)]
            have hone : c.reads <+: (clientRecvChain P quits size c avail).1.reads := by
              cases heof : (clientRecvChain P quits size c avail).1.eof quits with
              | true =>
                  rw [(clientRecvChain_ended hc heof).2.reads]
                  exact msgRecvChain_reads P size c avail
              | false =>
                  rw [clientRecvChain_eq heof]
                  exact msgRecvChain_reads P size c avail
            split
            · next hres =>
              rw [hres] at hone
              exact hone.trans (ih _ _)
            · next hres =>
              rw [hres] at hone
              exact hone
      · exact List.prefix_rfl

/-- The reads of the first chunks are among those of the whole run. -/
theorem clientRun_reads_append (P : Parser ρ) (quits : ρ → Bool) (size : ℕ)
    (xs ys : List (List Byte)) :
    (clientRun P quits size xs).reads <+: (clientRun P quits size (xs ++ ys)).reads := by
  induction ys using List.reverseRecOn with
  | nil => simp only [List.append_nil, List.prefix_rfl]
  | append_singleton ys y ih =>
      rw [← List.append_assoc, clientRun_concat]
      exact ih.trans (clientRecv_reads P quits size _ _ y)

end Steps

/-! ### The frames of a stream -/

section Frames

variable {α ω : Type} {size : ℕ} {P : Parser ρ} {M : ByteMachine α ω} {quits : ρ → Bool}
  {Rel : List Mbuf → ℕ → α → ρ → Prop} {Out : List Mbuf → ω → ρ → Prop}

variable (size M Rel Out quits) in
/-- **How far a client connection has come** with the bytes `s` of the stream of `gs`: it goes on,
or it has ended with a `QUIT`, the last of the frames `ds` that it has delivered. -/
def ClientGoing (gs : List (List Byte × ω)) (c : Receiver ρ) (s : List Byte) : Prop :=
  c.eof quits = false ∧ Going size M Rel Out gs c s ∨
    c.eof quits = true ∧ c.status = .ok ∧ c.rmsg = none ∧
      ∃ ds rs u, gs = ds ++ rs ∧ s = stream ds ++ u ∧
        List.Forall₂ (Delivered size M Out) c.received ds

/-- A read that brings a `QUIT`. -/
theorem Ended.clientGoing {gs : List (List Byte × ω)} {c k r : Receiver ρ} {s : List Byte}
    (h : Ended quits c k r) (hok : c.status = .ok) (heof : k.eof quits = true)
    (hr : Going size M Rel Out gs r s) (rest : List Byte) :
    ClientGoing size M quits Rel Out gs k (s ++ rest) := by
  obtain ⟨ds, rs, u, rfl, rfl, -, hgood⟩ := hr
  have htake := List.prefix_iff_eq_take.1 h.received
  refine .inr ⟨heof, h.status.trans hok, h.rmsg, ds.take k.received.length,
    ds.drop k.received.length ++ rs, stream (ds.drop k.received.length) ++ u ++ rest, ?_, ?_, ?_⟩
  · rw [← List.append_assoc, List.take_append_drop]
  · conv_lhs => rw [← List.take_append_drop k.received.length ds, stream_append]
    simp only [List.append_assoc]
  · conv_lhs => rw [htake]
    exact List.forall₂_take _ hgood.delivered

variable (sim : Simulation size P M Rel Out) (hsize : size < 2 ^ 32) (hpos : 0 < size)
  {gs : List (List Byte × ω)}
  (hgs : ∀ g ∈ gs, (M.buffered size).Accepts (M.Safe size) (M.init, 0) g.1 g.2)

include sim hsize hpos hgs

theorem clientRecv_going {fuel : ℕ} {c : Receiver ρ} {s avail z : List Byte}
    (h : ClientGoing size M quits Rel Out gs c s) (hstream : stream gs = s ++ avail ++ z)
    (hfuel : avail.length < fuel)
    (hwrap : ∀ x ∈ (clientRecv P quits size fuel c avail).reads, wrap32 x ≠ 0) :
    ClientGoing size M quits Rel Out gs (clientRecv P quits size fuel c avail) (s ++ avail) := by
  induction fuel generalizing c s avail with
  | zero => omega
  | succ fuel ih =>
      rcases h with ⟨hc, hgoing⟩ | ⟨hc, hst, hrmsg, ds, rs, u, hgs', rfl, hdel⟩
      swap
      · rw [clientRecv]
        simp only [hst, hc, if_true]
        exact .inr ⟨hc, rfl, rfl, ds, rs, u ++ avail, hgs', List.append_assoc _ _ _, hdel⟩
      have hst : c.status = .ok := by
        obtain ⟨_, _, _, _, _, _, hgood⟩ := hgoing
        exact hgood.status
      rw [clientRecv] at hwrap ⊢
      simp only [hst, hc, Bool.false_eq_true, if_false] at hwrap ⊢
      have hone := msgRecvChain_upTo sim hsize (.inl rfl) hpos hgs hgoing
        (by rw [List.append_nil, hstream])
      cases heof : (clientRecvChain P quits size c avail).1.eof quits with
      | true =>
          obtain ⟨hflag, hend⟩ := clientRecvChain_ended hc heof
          generalize clientRecvChain P quits size c avail = res at heof hflag hend hwrap ⊢
          obtain ⟨c', rest, ready⟩ := res
          cases hflag
          obtain ⟨k, -, -, -, hup⟩ := hone (fun x hx => hwrap x (hend.reads ▸ hx))
          have hcut : s ++ avail = s ++ avail.take k ++ avail.drop k := by
            rw [List.append_assoc, List.take_append_drop]
          rw [hcut]
          rcases hup with hup | ⟨hne, -⟩
          · exact hend.clientGoing hst heof hup _
          · exact absurd rfl hne
      | false =>
          have heq := clientRecvChain_eq heof
          rw [heq] at heof hwrap ⊢
          generalize msgRecvChain P size c avail = res at heof hone hwrap ⊢
          obtain ⟨c', rest, ready⟩ := res
          simp only at heof
          cases ready with
          | true =>
              simp only at hone hwrap ⊢
              have hpre := clientRecv_reads P quits size fuel c' rest
              obtain ⟨k, rfl, hready, -, hup⟩ := hone (fun x hx => hwrap x (hpre.subset hx))
              obtain ⟨hk, hkl⟩ := hready trivial
              have hcut : s ++ avail = s ++ avail.take k ++ avail.drop k := by
                rw [List.append_assoc, List.take_append_drop]
              rw [hcut]
              refine ih (.inl ⟨heof, hup.resolve_right fun hne => hne.1 rfl⟩)
                (by rw [hstream, hcut]) ?_ hwrap
              rw [List.length_drop]
              omega
          | false =>
              simp only at hone hwrap ⊢
              obtain ⟨k, -, -, hlast, hup⟩ := hone hwrap
              rw [List.take_of_length_le (hlast trivial)] at hup
              exact .inl ⟨heof, hup.resolve_right fun hne => hne.1 rfl⟩

/-- **The frames of a stream are delivered up to a `QUIT`.** -/
theorem clientRun_going {chunks : List (List Byte)} {z : List Byte}
    (hstream : stream gs = chunks.flatten ++ z)
    (hwrap : ∀ x ∈ (clientRun P quits size chunks).reads, wrap32 x ≠ 0) :
    ClientGoing size M quits Rel Out gs (clientRun P quits size chunks) chunks.flatten := by
  induction chunks using List.reverseRecOn generalizing z with
  | nil =>
      refine .inl ⟨rfl, [], gs, [], rfl, rfl, ?_, ⟨rfl, rfl, .nil, Or.inl ⟨rfl, rfl⟩, by simp⟩⟩
      rintro r rs' rfl
      exact List.length_pos_iff.2 (hgs r (by simp)).ne_nil
  | append_singleton chunks chunk ih =>
      have hflat : (chunks ++ [chunk]).flatten = chunks.flatten ++ chunk := by simp
      rw [clientRun_concat] at hwrap ⊢
      rw [hflat] at hstream ⊢
      have hpre := clientRecv_reads P quits size (chunk.length + 1)
        (clientRun P quits size chunks) chunk
      have hup := ih (z := chunk ++ z) (by rw [hstream, List.append_assoc])
        (fun x hx => hwrap x (hpre.subset hx))
      exact clientRecv_going sim hsize hpos hgs hup hstream (Nat.lt_succ_self _) hwrap

end Frames

end CacheProxy
