/-
**Framing: a buffered parser that simulates a byte machine finds the frames of a stream.**

`CacheProxy/Receive.lean` calls a parser on the buffer that was just filled, moves tokens between
buffers and splits off what is behind a complete message.  Here a parser is related to a byte
machine (`CacheProxy/ByteMachine.lean`) that knows nothing of buffers, by the few facts in
`Simulation`, and the receive path is shown to deliver exactly the frames that the machine behind
buffers accepts, however the stream is cut into chunks, and to stop at the first byte it rejects.

Main definitions:

* `Simulation` — what a parser has to satisfy with respect to a machine;
* `Splits` — where the buffers of a message end: at the open token, if there is one;
* `Delivered` — what is known of a message handed to `recv_done`;
* `UpTo` — how far a connection has come with a stream.

Main results:

* `msgParse_more`, `msgParse_frame`, `msgParse_fail` — one parser call, in the middle of a frame,
  at its end, and on malformed input;
* `recvRun_frames` — **every frame of the stream is delivered, in order, and nothing else**;
* `recvRun_rejects` — **malformed input behind the frames is reported, and nothing else is
  delivered**.
-/

import CacheProxy.ByteMachine
import CacheProxy.Receive
import Mathlib.Data.List.Forall2

namespace CacheProxy

variable {α ω ρ : Type}

/-! ### Simulation of a machine by a parser -/

/-- **The parser simulates the machine.**  `Rel mhdr p a r` relates the registers `r` of a message
with chain `mhdr`, parsed up to offset `p` of its last buffer, to the machine's state `a`;
`Out mhdr o r` says what the registers hold when a frame with result `o` is complete. -/
structure Simulation (size : ℕ) (P : Parser ρ) (M : ByteMachine α ω)
    (Rel : List Mbuf → ℕ → α → ρ → Prop) (Out : List Mbuf → ω → ρ → Prop) : Prop where
  /-- a new message is in the initial state -/
  start : ∀ b, Rel [b] 0 M.init P.init
  /-- bytes behind the marker do not matter -/
  grow : ∀ {pre b p a r} (bs : List Byte), Rel (pre ++ [b]) p a r → p ≤ b.data.length →
    Rel (pre ++ [mbufCopy b bs]) p a r
  /-- outside a token, parsing goes on in a new buffer -/
  move : ∀ {pre b a r nb}, Rel (pre ++ [b]) b.data.length a r → M.token a = [] →
    (∀ x ∈ pre ++ [b], x.id ≠ nb.id) → Rel (pre ++ [b] ++ [nb]) 0 a r
  /-- a call that reaches the end of a frame -/
  parse_done : ∀ {pre b p a r o rest}, b.gone = [] → Rel (pre ++ [b]) p a r →
    p ≤ b.data.length → M.run a (b.data.drop p) = .done o rest →
    ∃ r', P.parse size b p r = (.ok, b.data.length - rest.length, r') ∧
      Out (pre ++ [b.truncate (b.data.length - rest.length)]) o r'
  /-- a call on malformed input -/
  parse_fail : ∀ {pre b p a r}, b.gone = [] → Rel (pre ++ [b]) p a r → p ≤ b.data.length →
    M.run a (b.data.drop p) = .fail → (P.parse size b p r).1 = .error
  /-- a call that needs more bytes -/
  parse_more : ∀ {pre b p a r a'}, b.gone = [] → Rel (pre ++ [b]) p a r → p ≤ b.data.length →
    M.run a (b.data.drop p) = .more a' → (M.token a' = [] ∨ b.data.length ≠ size) →
    ∃ r', P.parse size b p r = (.again, b.data.length, r') ∧
      Rel (pre ++ [b]) b.data.length a' r'
  /-- a call that ends inside a token in a full buffer -/
  parse_repair : ∀ {pre b p a r a'}, b.gone = [] → Rel (pre ++ [b]) p a r → p ≤ b.data.length →
    M.run a (b.data.drop p) = .more a' → M.token a' ≠ [] → b.data.length = size →
    b.data.drop (size - (M.token a').length) = M.token a' ∧
    ∃ r', P.parse size b p r = (.repair, size - (M.token a').length, r') ∧
      ∀ nb : Mbuf, nb.data = M.token a' → (∀ x ∈ pre ++ [b], x.id ≠ nb.id) →
        Rel (pre ++ [b.truncate (size - (M.token a').length), nb]) 0 (M.rewind a') r'

/-! ### Where buffers end -/

section

variable (size : ℕ) (P : Parser ρ) (M : ByteMachine α ω)
  (Rel : List Mbuf → ℕ → α → ρ → Prop) (Out : List Mbuf → ω → ρ → Prop)

/-- The buffer `x` of a message with bytes `u`, which follows `xs`, was full when the machine was
in a state `a`; the open token, if there was one, was then moved on. -/
def FilledAt (u : List Byte) (xs : List Mbuf) (x : Mbuf) : Prop :=
  ∃ a, content (xs ++ [x]) ++ M.token a <+: u ∧
    (M.buffered size).Leads (M.Safe size) (M.init, 0) (content (xs ++ [x]) ++ M.token a)
      (a, size) ∧ x.body.length + (M.token a).length = size

/-- Every buffer of the chain was filled in this sense. -/
def Splits (u : List Byte) (pre : List Mbuf) : Prop :=
  ∀ xs x ys, pre = xs ++ x :: ys → FilledAt size M u xs x

variable {size M} in
theorem splits_nil (u : List Byte) : Splits size M u [] := by
  intro xs x ys h
  simp at h

variable {size M} in
theorem Splits.mono {u u' : List Byte} {pre : List Mbuf} (h : Splits size M u pre)
    (hu : u <+: u') : Splits size M u' pre := by
  intro xs x ys heq
  obtain ⟨a, hpre, hl⟩ := h xs x ys heq
  exact ⟨a, hpre.trans hu, hl⟩

variable {size M} in
/-- Buffers are filled before the message ends. -/
theorem Splits.of_accepts {f z : List Byte} {o : ω} {pre : List Mbuf}
    (h : Splits size M (f ++ z) pre)
    (hacc : (M.buffered size).Accepts (M.Safe size) (M.init, 0) f o) : Splits size M f pre := by
  intro xs x ys heq
  obtain ⟨a, hpre, hl, hlen⟩ := h xs x ys heq
  refine ⟨a, ?_, hl, hlen⟩
  rcases List.prefix_or_prefix_of_prefix hpre (List.prefix_append f z) with hle | ⟨w, hw⟩
  · exact hle
  · -- the machine would have gone on behind the end of the frame
    rw [← hw] at hl
    have := hl.run_eq.symm.trans (hacc.run_append w)
    cases this

variable {size M} in
theorem Splits.snoc {u : List Byte} {pre : List Mbuf} {b : Mbuf} (h : Splits size M u pre)
    (hb : FilledAt size M u pre b) : Splits size M u (pre ++ [b]) := by
  intro xs x ys heq
  rcases List.eq_nil_or_concat ys with rfl | ⟨ys', y, rfl⟩
  · obtain ⟨rfl, hx⟩ := List.append_inj' heq rfl
    cases hx
    exact hb
  · rw [List.concat_eq_append, ← List.cons_append, ← List.append_assoc] at heq
    exact h xs x ys' (List.append_inj' heq rfl).1

/-! ### Messages in progress and messages delivered -/

/-- **A message in progress**: `v` is what its last buffer `b` holds behind the marker, and the
registers represent the state `a`. -/
structure HeldAt (next : ℕ) (msg : RecvMsg ρ) (pre : List Mbuf) (b : Mbuf) (v : List Byte)
    (a : α) : Prop where
  mhdr : msg.mhdr = pre ++ [b]
  filling : Filling size (pre ++ [b])
  ids : ∀ x ∈ pre ++ [b], x.id < next
  pos_le : msg.pos ≤ b.body.length
  unparsed : b.body.drop msg.pos = v
  rel : Rel (pre ++ [b]) msg.pos a msg.regs
  splits : Splits size M (content (pre ++ [b])) pre
  mlen : msg.mlen = wrap32 (content (pre ++ [b])).length

/-- The machine in state `a` with `v` still to read stands for the machine behind buffers in state
`x`, whose buffer has `n` bytes and room for more. -/
def Stands (x : α × ℕ) (a : α) (v : List Byte) (n : ℕ) : Prop :=
  n < size ∧ ∀ bs, bs ≠ [] → n + bs.length ≤ size →
    (M.buffered size).run x bs = ByteMachine.withFill (n + bs.length) (M.run a (v ++ bs))

/-- The connection has received the bytes `u` of a message and has parsed what it can. -/
def Held (c : Receiver ρ) (u : List Byte) : Prop :=
  (c.rmsg = none ∧ u = []) ∨
    ∃ msg pre b v a x, c.rmsg = some msg ∧ HeldAt size M Rel c.nextMbuf msg pre b v a ∧
      content (pre ++ [b]) = u ∧
      (M.buffered size).Leads (M.Safe size) (M.init, 0) u x ∧ M.Safe size x ∧
      (Stands size M x a v b.body.length ∨
        b.body.length = size ∧ v = [] ∧ x = (a, size) ∧ M.token a = [])

/-- **A message handed to `recv_done`** for the frame `f`: it holds the frame's bytes, its
registers hold the frame's result, and its buffers end at the open token. -/
structure Delivered (msg : RecvMsg ρ) (f : List Byte × ω) : Prop where
  bytes : msg.bytes = f.1
  out : Out msg.mhdr f.2 msg.regs
  mlen : msg.mlen = wrap32 f.1.length
  chain : ∃ pre b, msg.mhdr = pre ++ [b] ∧ Splits size M f.1 pre ∧
    Filling size (pre ++ [b]) ∧ b.body ≠ []

/-- The connection has delivered the frames `fs` and holds `u`. -/
structure Good (c : Receiver ρ) (fs : List (List Byte × ω)) (u : List Byte) : Prop where
  status : c.status = .ok
  dropped : c.dropped = []
  delivered : List.Forall₂ (Delivered size M Out) c.received fs
  held : Held size M Rel c u
  counted : u ≠ [] → wrap32 u.length ≠ 0

/-- The connection has delivered the frames `fs` and has met malformed input. -/
structure Failed (c : Receiver ρ) (fs : List (List Byte × ω)) : Prop where
  status : c.status = .error
  delivered : List.Forall₂ (Delivered size M Out) c.received fs

end

section Steps

variable {size : ℕ} {P : Parser ρ} {M : ByteMachine α ω}
  {Rel : List Mbuf → ℕ → α → ρ → Prop} {Out : List Mbuf → ω → ρ → Prop}

/-- The bytes of a buffer that is being filled. -/
theorem Filling.data_eq {b : Mbuf} {pre : List Mbuf} (h : Filling size (pre ++ [b])) :
    b.data = b.body := by
  simp [Mbuf.data, (h b (by simp)).1]

theorem msgEmpty_eq_false {m : MsgBuf} {n : ℕ} (h : m.mlen = wrap32 n) (hn : wrap32 n ≠ 0) :
    msgEmpty m = false := by
  simp [msgEmpty, h, hn]

/-- What a connection holds is what it has read of the message. -/
theorem Held.pending_eq {c : Receiver ρ} {u : List Byte} (h : Held size M Rel c u) :
    c.pending = u := by
  rcases h with ⟨hnone, rfl⟩ | ⟨msg, pre, b, v, a, x, hsome, h, hu, -⟩
  · simp [Receiver.pending, hnone]
  · simp [Receiver.pending, hsome, MsgBuf.bytes, h.mhdr, ← hu]

/-- A buffer with a piece `z` taken off its end. -/
theorem content_truncate {pre : List Mbuf} {b : Mbuf} {w z : List Byte}
    (hgone : b.gone = []) (hcut : content (pre ++ [b]) = w ++ z) (hz : z.length ≤ b.body.length) :
    b.data.drop (b.data.length - z.length) = z ∧
      content (pre ++ [b.truncate (b.data.length - z.length)]) = w := by
  have hdata : b.data = b.body := by simp [Mbuf.data, hgone]
  have hcat : content pre ++ b.body = w ++ z := by
    rw [← hcut]
    simp
  rw [← List.take_append_drop (b.body.length - z.length) b.body, ← List.append_assoc] at hcat
  have hlen : (b.body.drop (b.body.length - z.length)).length = z.length := by
    rw [List.length_drop]
    omega
  obtain ⟨hl, hr⟩ := List.append_inj' hcat hlen
  rw [hdata]
  refine ⟨hr, ?_⟩
  simp [Mbuf.truncate, hgone, hl]

/-! ### States that stand for others -/

theorem stands_room {a : α} {n : ℕ} (hn : n < size) : Stands size M (a, n) a [] n :=
  ⟨hn, fun _ _ hbs => ByteMachine.buffered_run_room hbs⟩

theorem stands_full {a : α} (hpos : 0 < size) (htok : M.token a = []) :
    Stands size M (a, size) a [] 0 := by
  refine ⟨hpos, fun bs hne hbs => ?_⟩
  rw [List.nil_append, ← ByteMachine.buffered_run_room hbs]
  exact ByteMachine.buffered_run_congr
    (by rw [ByteMachine.refill_full htok, ByteMachine.refill_room hpos]) hne

theorem stands_token {a : α} (hsafe : M.Safe size (a, size)) (htok : M.token a ≠ []) :
    Stands size M (a, size) (M.rewind a) (M.token a) (M.token a).length :=
  ⟨(hsafe.2 rfl htok).1, fun _ hne hbs => ByteMachine.buffered_run_token hsafe htok hne hbs⟩

theorem withFill_eq_more {n : ℕ} {out : Outcome α ω} {x : α × ℕ}
    (h : ByteMachine.withFill n out = .more x) : ∃ a, out = .more a ∧ x = (a, n) := by
  cases out with
  | more a =>
      cases h
      exact ⟨a, rfl, rfl⟩
  | done | fail => cases h

theorem withFill_eq_done {n : ℕ} {out : Outcome α ω} {o : ω} {rest : List Byte}
    (h : ByteMachine.withFill n out = .done o rest) : out = .done o rest := by
  cases out <;> cases h
  rfl

theorem withFill_eq_fail {n : ℕ} {out : Outcome α ω} (h : ByteMachine.withFill n out = .fail) :
    out = .fail := by
  cases out <;> cases h
  rfl

/-- In a buffer with room the two machines have read the same number of bytes. -/
theorem Stands.fill_eq {a a' a'' : α} {m n : ℕ} {v : List Byte} {c : Byte}
    (h : Stands size M (a', m) a v n) (hm : m < size) (hstep : M.step a' c = .more a'') :
    n = m := by
  obtain ⟨hn, hrun⟩ := h
  have hone := hrun [c] (by simp) hn
  rw [ByteMachine.buffered_run_room hm, ByteMachine.run_cons_more hstep] at hone
  obtain ⟨b, -, heq⟩ := withFill_eq_more hone.symm
  have hfill : m + 1 = n + 1 := congrArg Prod.snd heq
  omega

/-! ### What the next read does -/

/-- The message that the next read extends. -/
theorem Held.withMbuf_mlen {c : Receiver ρ} {u : List Byte} (h : Held size M Rel c u) :
    (withMbuf size c (recvNext P c)).2.mlen = wrap32 u.length := by
  have hmlen : (withMbuf size c (recvNext P c)).2.mlen = (recvNext P c).mlen := by
    unfold withMbuf
    split <;> rfl
  rw [hmlen]
  rcases h with ⟨hnone, rfl⟩ | ⟨msg, pre, b, v, a, x, hsome, h, rfl, -⟩
  · rw [recvNext, hnone]
    rfl
  · rw [recvNext, hsome]
    exact h.mlen

/-- The room that the next read has. -/
theorem Held.recvRoom_eq {c : Receiver ρ} {u : List Byte} (h : Held size M Rel c u) :
    recvRoom size (withMbuf size c (recvNext P c)).2 = size ∨
      ∃ a v x n, (M.buffered size).Leads (M.Safe size) (M.init, 0) u x ∧ Stands size M x a v n ∧
        recvRoom size (withMbuf size c (recvNext P c)).2 = size - n := by
  rcases h with ⟨hnone, rfl⟩ | ⟨msg, pre, b, v, a, x, hsome, h, rfl, hl, -, hstands | ⟨hfull, -⟩⟩
  · left
    simp [recvNext, hnone, withMbuf, needsMbuf, recvRoom, mbufSize]
  · right
    refine ⟨a, v, x, b.body.length, hl, hstands, ?_⟩
    have hgone : b.gone = [] := (h.filling b (by simp)).1
    have hroom : mbufFull size b = false := by
      have := hstands.1
      simp only [mbufFull, Mbuf.data, hgone, List.nil_append]
      simpa using this.ne
    simp [recvNext, hsome, withMbuf, needsMbuf, h.mhdr, hroom, recvRoom, mbufSize, Mbuf.data, hgone]
  · left
    have hgone : b.gone = [] := (h.filling b (by simp)).1
    have hroom : mbufFull size b = true := by
      simp [mbufFull, Mbuf.data, hgone, hfull]
    simp [recvNext, hsome, withMbuf, needsMbuf, h.mhdr, hroom, recvRoom, mbufSize]

/-! ### One parser call -/

/-- The bytes of the last buffer behind the marker, as the parser sees them. -/
theorem HeldAt.run_eq {next : ℕ} {msg : RecvMsg ρ} {pre : List Mbuf} {b : Mbuf} {v : List Byte}
    {a : α} (h : HeldAt size M Rel next msg pre b v a) :
    b.gone = [] ∧ msg.pos ≤ b.data.length ∧ M.run a (b.data.drop msg.pos) = M.run a v := by
  have hdata : b.data = b.body := h.filling.data_eq
  refine ⟨(h.filling b (by simp)).1, hdata ▸ h.pos_le, ?_⟩
  rw [hdata, h.unparsed]

/-- **A parser call in the middle of a frame** reads on or moves a token, and keeps the message. -/
theorem msgParse_more (sim : Simulation size P M Rel Out) {c : Receiver ρ} {msg : RecvMsg ρ}
    {pre : List Mbuf} {b : Mbuf} {v : List Byte} {a a' : α}
    (h : HeldAt size M Rel c.nextMbuf msg pre b v a)
    (hlen : wrap32 (content (pre ++ [b])).length ≠ 0) (hrun : M.run a v = .more a')
    (hl : (M.buffered size).Leads (M.Safe size) (M.init, 0) (content (pre ++ [b]))
      (a', b.body.length)) (hsafe : M.Safe size (a', b.body.length)) :
    ∃ c', msgParse P size c msg = (c', false) ∧ c'.status = c.status ∧
      c'.dropped = c.dropped ∧ c'.received = c.received ∧
      Held size M Rel c' (content (pre ++ [b])) := by
  have hdata : b.data = b.body := h.filling.data_eq
  obtain ⟨hgone, hpos, hrun'⟩ := h.run_eq
  rw [hrun] at hrun'
  rw [msgParse_of_nonempty (msgEmpty_eq_false h.mlen hlen) h.mhdr]
  by_cases hcase : M.token a' = [] ∨ b.data.length ≠ size
  · -- the buffer is read to its end and the message stays as it is
    obtain ⟨r', hparse, hrel⟩ := sim.parse_more hgone h.rel hpos hrun' hcase
    rw [hparse]
    refine ⟨_, rfl, rfl, rfl, rfl, Or.inr
      ⟨_, pre, b, [], a', (a', b.body.length), rfl, ?_, rfl, hl, hsafe, ?_⟩⟩
    · exact
        { mhdr := h.mhdr
          filling := h.filling
          ids := h.ids
          pos_le := by simp [hdata]
          unparsed := by simp [hdata]
          rel := hrel
          splits := h.splits
          mlen := h.mlen }
    · by_cases hfull : b.body.length = size
      · refine .inr ⟨hfull, rfl, by rw [hfull], ?_⟩
        rcases hcase with hcase | hcase
        · exact hcase
        · exact absurd (by rw [hdata, hfull]) hcase
      · exact .inl (stands_room (Nat.lt_of_le_of_ne hsafe.1 hfull))
  · -- the open token moves to a new buffer
    obtain ⟨htok, hfull⟩ := not_or.1 hcase
    have hfull : b.data.length = size := not_not.1 hfull
    obtain ⟨hdrop, r', hparse, hrel⟩ := sim.parse_repair hgone h.rel hpos hrun' htok hfull
    have hbsize : b.body.length = size := by rw [← hdata, hfull]
    rw [hbsize] at hl hsafe
    have htlen := (hsafe.2 rfl htok).1
    rw [hparse]
    have hrep := msgRepair_eq c
      { msg with pos := size - (M.token a').length, regs := r' } h.mhdr
    simp only [hdrop] at hrep
    simp only [hrep]
    have hne : ∀ x ∈ pre ++ [b], x.id ≠ (mbufCopy (mbufGet c.nextMbuf) (M.token a')).id := by
      intro x hx
      exact Nat.ne_of_lt (h.ids x hx)
    obtain ⟨hfpre, -⟩ := filling_append.1 h.filling
    have hbody : (b.truncate (size - (M.token a').length)).body ++
        b.data.drop (size - (M.token a').length) = b.body :=
      Mbuf.truncate_body_append (by simp [hgone])
    rw [hdrop] at hbody
    have hcont : content (pre ++ [b.truncate (size - (M.token a').length)]) ++ M.token a' =
        content (pre ++ [b]) := by
      simp only [content_append, content_cons, content_nil, List.append_nil, List.append_assoc,
        hbody]
    have hcont' : content (pre ++ [b.truncate (size - (M.token a').length)] ++
        [mbufCopy (mbufGet c.nextMbuf) (M.token a')]) = content (pre ++ [b]) := by
      rw [content_append, ← hcont]
      simp
    have htrunc : (b.truncate (size - (M.token a').length)).body.length +
        (M.token a').length = size := by
      rw [← List.length_append, hbody, hbsize]
    refine ⟨_, rfl, rfl, rfl, rfl, Or.inr ⟨_,
      pre ++ [b.truncate (size - (M.token a').length)],
      mbufCopy (mbufGet c.nextMbuf) (M.token a'), M.token a', M.rewind a', (a', size), rfl, ?_,
      hcont', hl, hsafe, ?_⟩⟩
    · exact
        { mhdr := by simp
          filling := by
            refine filling_append.2 ⟨filling_append.2 ⟨hfpre, ?_⟩, ?_⟩
            · exact filling_singleton.2 ⟨hgone, by omega⟩
            · exact filling_singleton.2 ⟨rfl, by simp; omega⟩
          ids := by
            intro x hx
            simp only [List.append_assoc, List.mem_append, List.mem_singleton] at hx
            rcases hx with hx | rfl | rfl
            · exact Nat.lt_succ_of_lt (h.ids x (by simp [hx]))
            · exact Nat.lt_succ_of_lt (h.ids b (by simp))
            · exact Nat.lt_succ_self _
          pos_le := Nat.zero_le _
          unparsed := by simp
          rel := by
            have := hrel (mbufCopy (mbufGet c.nextMbuf) (M.token a')) (by simp) hne
            simpa using this
          splits := by
            rw [hcont']
            exact h.splits.snoc ⟨a', hcont ▸ List.prefix_rfl, by
              rw [hcont]; exact hl, htrunc⟩
          mlen := by rw [hcont']; exact h.mlen }
    · rw [mbufCopy_body, mbufGet_body, List.nil_append]
      exact .inl (stands_token hsafe htok)

/-- **A parser call on malformed input** reports an error. -/
theorem msgParse_fail (sim : Simulation size P M Rel Out) {c : Receiver ρ} {msg : RecvMsg ρ}
    {pre : List Mbuf} {b : Mbuf} {v : List Byte} {a : α}
    (h : HeldAt size M Rel c.nextMbuf msg pre b v a)
    (hlen : wrap32 (content (pre ++ [b])).length ≠ 0) (hrun : M.run a v = .fail) :
    ∃ c', msgParse P size c msg = (c', false) ∧ c'.status = .error ∧ c'.received = c.received := by
  obtain ⟨hgone, hpos, hrun'⟩ := h.run_eq
  rw [hrun] at hrun'
  have herr := sim.parse_fail hgone h.rel hpos hrun'
  rw [msgParse_of_nonempty (msgEmpty_eq_false h.mlen hlen) h.mhdr]
  generalize P.parse size b msg.pos msg.regs = res at herr
  obtain ⟨status, pos, regs⟩ := res
  cases herr
  exact ⟨_, rfl, rfl, rfl⟩

/-- The registers of a new message behind a complete one. -/
theorem heldAt_start (sim : Simulation size P M Rel Out) {next : ℕ} {v : List Byte}
    (hv : v.length ≤ size) :
    HeldAt size M Rel (next + 1)
      { mhdr := [mbufCopy (mbufGet next) v], mlen := wrap32 v.length, regs := P.init }
      [] (mbufCopy (mbufGet next) v) v M.init :=
  { mhdr := rfl
    filling := filling_singleton.2 ⟨rfl, hv⟩
    ids := by simp
    pos_le := Nat.zero_le _
    unparsed := by simp
    rel := sim.start _
    splits := splits_nil _
    mlen := by simp }

theorem sub32_wrap32 {m n : ℕ} : sub32 (wrap32 (m + n)) (wrap32 n) = wrap32 m := by
  unfold sub32 wrap32
  omega

/-- **A parser call that reaches the end of a frame** hands the message on; what is behind it
becomes the next message. -/
theorem msgParse_frame (sim : Simulation size P M Rel Out) {c : Receiver ρ} {msg : RecvMsg ρ}
    {pre : List Mbuf} {b : Mbuf} {v z : List Byte} {a : α} {f : List Byte × ω}
    (h : HeldAt size M Rel c.nextMbuf msg pre b v a)
    (hlen : wrap32 (content (pre ++ [b])).length ≠ 0) (hrun : M.run a v = .done f.2 z)
    (hcut : content (pre ++ [b]) = f.1 ++ z)
    (hacc : (M.buffered size).Accepts (M.Safe size) (M.init, 0) f.1 f.2) :
    ∃ msg', Delivered size M Out msg' f ∧
      ((z = [] ∧ msgParse P size c msg =
          ({ c with rmsg := none, received := c.received ++ [msg'] }, false)) ∨
        ∃ nmsg nb, z ≠ [] ∧ msgParse P size c msg =
            ({ c with rmsg := some nmsg, nextMbuf := c.nextMbuf + 1,
                      received := c.received ++ [msg'] }, true) ∧
          HeldAt size M Rel (c.nextMbuf + 1) nmsg [] nb z M.init ∧ nb.body = z ∧
          z.length ≤ size) := by
  have hdata : b.data = b.body := h.filling.data_eq
  obtain ⟨-, hfit⟩ := h.filling b (by simp)
  obtain ⟨hgone, hpos, hrun'⟩ := h.run_eq
  rw [hrun] at hrun'
  obtain ⟨r', hparse, hout⟩ := sim.parse_done hgone h.rel hpos hrun'
  -- the frame ends at an offset of the last buffer behind the marker
  obtain ⟨v₁, hv₁, hv⟩ := ByteMachine.run_done_rest hrun
  have hvlen : b.body.length - msg.pos = v₁.length + z.length := by
    rw [← List.length_append, ← hv, ← h.unparsed, List.length_drop]
  have hv₁pos : 0 < v₁.length := List.length_pos_iff.2 hv₁
  obtain ⟨hdrop, hcont⟩ := content_truncate hgone hcut (by omega)
  have hsplits : Splits size M f.1 pre := (hcut ▸ h.splits).of_accepts hacc
  have hnonempty : (b.truncate (b.data.length - z.length)).body ≠ [] := by
    intro hnil
    have := congrArg List.length hnil
    simp [Mbuf.truncate, hgone, hdata] at this
    omega
  have hfill : Filling size (pre ++ [b.truncate (b.data.length - z.length)]) := by
    refine filling_append.2 ⟨(filling_append.1 h.filling).1, filling_singleton.2 ⟨hgone, ?_⟩⟩
    simp [Mbuf.truncate, hgone]
    omega
  rw [msgParse_of_nonempty (msgEmpty_eq_false h.mlen hlen) h.mhdr, hparse]
  by_cases hz : z = []
  · subst hz
    have htrunc : b.truncate (b.data.length - ([] : List Byte).length) = b := by simp
    rw [htrunc] at hout hcont hnonempty hfill
    have hpd := msgParsed_of_end (P := P) c
      { msg with pos := b.data.length - ([] : List Byte).length, regs := r' } h.mhdr (by simp)
    refine ⟨{ msg with pos := b.data.length - ([] : List Byte).length, regs := r' },
      ⟨?_, ?_, ?_, ?_⟩, Or.inl ⟨rfl, ?_⟩⟩
    · rw [MsgBuf.bytes, h.mhdr, hcont]
    · rw [h.mhdr]
      exact hout
    · rw [← hcont]
      exact h.mlen
    · exact ⟨pre, b, h.mhdr, hsplits, hfill, hnonempty⟩
    · simp only [hpd]
      rfl
  · have hzpos : 0 < z.length := List.length_pos_iff.2 hz
    have hpd := msgParsed_of_leftover (P := P) c
      { msg with pos := b.data.length - z.length, regs := r' } h.mhdr
      (by simp only [hdata]; omega)
    simp only [hdrop] at hpd
    refine ⟨{ msg with
        mhdr := pre ++ [b.truncate (b.data.length - z.length)]
        mlen := sub32 msg.mlen (wrap32 z.length)
        pos := b.data.length - z.length
        regs := r' }, ⟨hcont, hout, ?_, ?_⟩, Or.inr ⟨_, _, hz, ?_,
        heldAt_start sim (by omega), by simp, by omega⟩⟩
    · simp only [h.mlen, hcut, List.length_append, sub32_wrap32]
    · exact ⟨pre, _, rfl, hsplits, hfill, hnonempty⟩
    · simp only [hpd]
      rfl

/-! ### Reads -/

/-- The message that a read fills is the one held, in a buffer with room. -/
theorem Held.withMbuf (sim : Simulation size P M Rel Out) (hpos : 0 < size) {c : Receiver ρ}
    {u : List Byte} (h : Held size M Rel c u) :
    ∃ pre b v a x, content (pre ++ [b]) = u ∧
      HeldAt size M Rel (CacheProxy.withMbuf size c (recvNext P c)).1.nextMbuf
        (CacheProxy.withMbuf size c (recvNext P c)).2 pre b v a ∧
      (M.buffered size).Leads (M.Safe size) (M.init, 0) u x ∧ M.Safe size x ∧
      Stands size M x a v b.body.length ∧
      ((CacheProxy.withMbuf size c (recvNext P c)).1 = c ∨
        (CacheProxy.withMbuf size c (recvNext P c)).1 =
          { c with nextMbuf := c.nextMbuf + 1 }) := by
  rcases h with ⟨hnone, rfl⟩ | ⟨msg, pre, b, v, a, x, hsome, h, hu, hl, hsafe, hstands⟩
  · have hw : CacheProxy.withMbuf size c (recvNext P c) =
        ({ c with nextMbuf := c.nextMbuf + 1 },
          { mhdr := [mbufGet c.nextMbuf], regs := P.init }) := by
      simp [CacheProxy.withMbuf, recvNext, hnone, needsMbuf]
    rw [hw]
    refine ⟨[], mbufGet c.nextMbuf, [], M.init, (M.init, 0), rfl, heldAt_start sim (Nat.zero_le _),
      rfl, ⟨Nat.zero_le _, fun hzero => ?_⟩, stands_room hpos, Or.inr rfl⟩
    exact absurd hzero (Nat.ne_of_lt hpos)
  · have hmsg : recvNext P c = msg := by simp [recvNext, hsome]
    have hdata : b.data = b.body := h.filling.data_eq
    obtain ⟨hgone, hfit⟩ := h.filling b (by simp)
    have hneed : needsMbuf size msg = decide (b.body.length = size) := by
      simp [needsMbuf, h.mhdr, mbufFull, hdata, beq_eq_decide]
    rcases hstands with hstands | ⟨hfull, rfl, rfl, htok⟩
    · have hw : CacheProxy.withMbuf size c (recvNext P c) = (c, msg) := by
        simp [CacheProxy.withMbuf, hmsg, hneed, Nat.ne_of_lt hstands.1]
      rw [hw]
      exact ⟨pre, b, v, a, x, hu, h, hl, hsafe, hstands, Or.inl rfl⟩
    · have hw : CacheProxy.withMbuf size c (recvNext P c) =
          ({ c with nextMbuf := c.nextMbuf + 1 },
            { msg with mhdr := msg.mhdr ++ [mbufGet c.nextMbuf], pos := 0 }) := by
        simp [CacheProxy.withMbuf, hmsg, hneed, hfull]
      have hend : msg.pos = b.data.length := by
        have h1 := h.unparsed
        have h2 := h.pos_le
        rw [List.drop_eq_nil_iff] at h1
        rw [hdata]
        omega
      have hcont : content (pre ++ [b] ++ [mbufGet c.nextMbuf]) = content (pre ++ [b]) := by
        rw [content_append]
        simp
      rw [hw]
      refine ⟨pre ++ [b], mbufGet c.nextMbuf, [], a, (a, size), hcont.trans hu, ?_, hl, hsafe,
        stands_full hpos htok, Or.inr rfl⟩
      exact
        { mhdr := by rw [h.mhdr]
          filling := filling_append.2 ⟨h.filling, filling_singleton.2 ⟨rfl, Nat.zero_le _⟩⟩
          ids := by
            intro y hy
            rcases List.mem_append.1 hy with hy | hy
            · exact Nat.lt_succ_of_lt (h.ids y hy)
            · rw [List.mem_singleton.1 hy]
              exact Nat.lt_succ_self _
          pos_le := Nat.zero_le _
          unparsed := rfl
          rel := sim.move (hend ▸ h.rel) htok (fun y hy => Nat.ne_of_lt (h.ids y hy))
          splits := by
            rw [hcont]
            exact h.splits.snoc ⟨a, by simp only [htok, List.append_nil, List.prefix_rfl], by
              rw [htok, List.append_nil, hu]; exact hl, by rw [htok]; simpa using hfull⟩
          mlen := by rw [hcont]; exact h.mlen }

/-- Bytes read into the last buffer are held behind the marker. -/
theorem HeldAt.recvBytes (sim : Simulation size P M Rel Out) {next : ℕ} {msg : RecvMsg ρ}
    {pre : List Mbuf} {b : Mbuf} {v : List Byte} {a : α} (bs : List Byte)
    (h : HeldAt size M Rel next msg pre b v a) (hfit : b.body.length + bs.length ≤ size) :
    HeldAt size M Rel next (CacheProxy.recvBytes msg bs) pre (mbufCopy b bs) (v ++ bs) a ∧
      content (pre ++ [mbufCopy b bs]) = content (pre ++ [b]) ++ bs := by
  have hdata : b.data = b.body := h.filling.data_eq
  have hcont : content (pre ++ [mbufCopy b bs]) = content (pre ++ [b]) ++ bs := by simp
  obtain ⟨hfpre, hfb⟩ := filling_append.1 h.filling
  refine ⟨?_, hcont⟩
  exact
    { mhdr := recvBytes_mhdr h.mhdr bs
      filling := by
        refine filling_append.2 ⟨hfpre, filling_singleton.2 ⟨(filling_singleton.1 hfb).1, ?_⟩⟩
        simpa using hfit
      ids := by
        intro x hx
        rcases List.mem_append.1 hx with hx | hx
        · exact h.ids x (by simp [hx])
        · rw [List.mem_singleton.1 hx]
          exact h.ids b (by simp)
      pos_le := by
        have := h.pos_le
        simp only [CacheProxy.recvBytes, mbufCopy_body, List.length_append]
        omega
      unparsed := by
        simp only [CacheProxy.recvBytes, mbufCopy_body]
        rw [List.drop_append_of_le_length h.pos_le, h.unparsed]
      rel := sim.grow bs h.rel (hdata ▸ h.pos_le)
      splits := h.splits.mono (by rw [hcont]; exact List.prefix_append _ _)
      mlen := by
        have := h.mlen
        rw [hcont, List.length_append]
        simp only [CacheProxy.recvBytes, this, wrap32]
        omega }

/-! ### Runs -/

/-- The bytes of a list of frames. -/
def stream (fs : List (List Byte × ω)) : List Byte := fs.flatMap Prod.fst

@[simp] theorem stream_nil : stream ([] : List (List Byte × ω)) = [] := rfl

@[simp] theorem stream_cons (f : List Byte × ω) (fs : List (List Byte × ω)) :
    stream (f :: fs) = f.1 ++ stream fs := by
  simp [stream]

@[simp] theorem stream_append (fs gs : List (List Byte × ω)) :
    stream (fs ++ gs) = stream fs ++ stream gs := by
  simp [stream]

variable (size M Rel Out) in
/-- The connection has taken the bytes `s` of the stream of `gs` and what follows: it has delivered
the frames that end in `s` and holds the rest. -/
def Going (gs : List (List Byte × ω)) (c : Receiver ρ) (s : List Byte) : Prop :=
  ∃ ds rs u, gs = ds ++ rs ∧ s = stream ds ++ u ∧
    (∀ r rs', rs = r :: rs' → u.length < r.1.length) ∧ Good size M Rel Out c ds u

variable (size M Rel Out) in
/-- **How far the connection has come with the frames `gs` and the malformed input `t` behind
them**, if there is any. -/
def UpTo (gs : List (List Byte × ω)) (t : List Byte) (c : Receiver ρ) (s : List Byte) : Prop :=
  Going size M Rel Out gs c s ∨ (t ≠ [] ∧ Failed size M Out c gs)

variable (sim : Simulation size P M Rel Out) (hsize : size < 2 ^ 32) {t : List Byte}
  (ht : t = [] ∨ (M.buffered size).Rejects (M.Safe size) (M.init, 0) t)

include sim hsize ht

omit hsize ht in
/-- The parser call after a read when the frame, or the malformed input, is not complete. -/
theorem parseLoop_going {fuel : ℕ} {c : Receiver ρ} {msg : RecvMsg ρ} {pre : List Mbuf} {b : Mbuf}
    {v : List Byte} {a : α} {x : α × ℕ} {fs : List (List Byte × ω)} (hst : c.status = .ok)
    (hdrop : c.dropped = []) (hdel : List.Forall₂ (Delivered size M Out) c.received fs)
    (h : HeldAt size M Rel c.nextMbuf msg pre b v a)
    (hlen : wrap32 (content (pre ++ [b])).length ≠ 0)
    (hrun : (M.buffered size).run (M.init, 0) (content (pre ++ [b])) =
      ByteMachine.withFill b.body.length (M.run a v))
    (hl : (M.buffered size).Leads (M.Safe size) (M.init, 0) (content (pre ++ [b])) x)
    (hsafe : M.Safe size x) :
    Good size M Rel Out (parseLoop P size (fuel + 1) c msg) fs (content (pre ++ [b])) := by
  rw [hl.run_eq] at hrun
  obtain ⟨a', hrun', rfl⟩ := withFill_eq_more hrun.symm
  obtain ⟨c', hparse, hs, hd, hr, hheld⟩ := msgParse_more sim h hlen hrun' hl hsafe
  rw [parseLoop, hparse]
  exact ⟨hs.trans hst, hd.trans hdrop, hr ▸ hdel, hheld, fun _ => hlen⟩

/-- The parser calls after a read deliver the frames that are complete and hold the rest. -/
theorem parseLoop_upTo {fuel : ℕ} {c : Receiver ρ} {msg : RecvMsg ρ} {pre : List Mbuf} {b : Mbuf}
    {v : List Byte} {a : α} {fs gs : List (List Byte × ω)} {z : List Byte}
    (hgs : ∀ g ∈ gs, (M.buffered size).Accepts (M.Safe size) (M.init, 0) g.1 g.2)
    (hst : c.status = .ok) (hdrop : c.dropped = [])
    (hdel : List.Forall₂ (Delivered size M Out) c.received fs)
    (h : HeldAt size M Rel c.nextMbuf msg pre b v a)
    (hlen : wrap32 (content (pre ++ [b])).length ≠ 0)
    (hrun : (M.buffered size).run (M.init, 0) (content (pre ++ [b])) =
      ByteMachine.withFill b.body.length (M.run a v))
    (hstream : stream gs ++ t = content (pre ++ [b]) ++ z)
    (hfuel : (content (pre ++ [b])).length < fuel) :
    (∃ ds rs u, gs = ds ++ rs ∧ content (pre ++ [b]) = stream ds ++ u ∧
      (∀ r rs', rs = r :: rs' → u.length < r.1.length) ∧
      Good size M Rel Out (parseLoop P size fuel c msg) (fs ++ ds) u) ∨
    (t ≠ [] ∧ Failed size M Out (parseLoop P size fuel c msg) (fs ++ gs)) := by
  induction gs generalizing fuel c msg pre b v a fs with
  | nil =>
      obtain ⟨fuel, rfl⟩ : ∃ k, fuel = k + 1 := ⟨fuel - 1, by omega⟩
      rw [stream_nil, List.nil_append] at hstream
      rcases ht with rfl | hrej
      · have hnil := (List.append_eq_nil_iff.1 hstream.symm).1
        rw [hnil] at hlen
        exact absurd rfl hlen
      · have hne : t ≠ [] := hrej.ne_nil
        rw [hstream] at hrej
        rcases hrej.split with ⟨x, hl, hsafe, -⟩ | hfail
        · exact .inl ⟨[], [], content (pre ++ [b]), rfl, rfl, by simp, by
            rw [List.append_nil]
            exact parseLoop_going sim hst hdrop hdel h hlen hrun hl hsafe⟩
        · rw [hfail] at hrun
          obtain ⟨c', hparse, hs, hr⟩ := msgParse_fail sim h hlen (withFill_eq_fail hrun.symm)
          refine .inr ⟨hne, ?_⟩
          rw [parseLoop, hparse, List.append_nil]
          exact ⟨hs, hr ▸ hdel⟩
  | cons g gs ih =>
      obtain ⟨fuel, rfl⟩ : ∃ k, fuel = k + 1 := ⟨fuel - 1, by omega⟩
      have hacc := hgs g (by simp)
      rw [stream_cons, List.append_assoc] at hstream
      by_cases hcase : (content (pre ++ [b])).length < g.1.length
      · obtain ⟨z', hz'⟩ : content (pre ++ [b]) <+: g.1 := by
          refine List.prefix_of_prefix_length_le ?_ (List.prefix_append g.1 (stream gs ++ t))
            hcase.le
          rw [hstream]
          exact List.prefix_append _ _
        have hz : z' ≠ [] := by
          rintro rfl
          rw [List.append_nil] at hz'
          rw [hz'] at hcase
          exact Nat.lt_irrefl _ hcase
        rw [← hz'] at hacc
        obtain ⟨x, hl, hx⟩ := hacc.split hz
        refine .inl ⟨[], g :: gs, content (pre ++ [b]), rfl, rfl, ?_, ?_⟩
        · rintro r rs' ⟨rfl, rfl⟩
          exact hcase
        · rw [List.append_nil]
          exact parseLoop_going sim hst hdrop hdel h hlen hrun hl hx.ok_start
      · -- the frame is complete, with `z'` behind it
        obtain ⟨z', hz'⟩ : g.1 <+: content (pre ++ [b]) := by
          refine List.prefix_of_prefix_length_le (List.prefix_append g.1 (stream gs ++ t)) ?_
            (Nat.le_of_not_lt hcase)
          rw [hstream]
          exact List.prefix_append _ _
        have hdone : M.run a v = .done g.2 z' := by
          rw [← hz', hacc.run_append] at hrun
          exact withFill_eq_done hrun.symm
        obtain ⟨msg', hmsg', hres⟩ := msgParse_frame sim h hlen hdone hz'.symm hacc
        have hdel' : List.Forall₂ (Delivered size M Out) (c.received ++ [msg']) (fs ++ [g]) :=
          List.rel_append hdel (.cons hmsg' .nil)
        rw [parseLoop]
        rcases hres with ⟨rfl, hparse⟩ | ⟨nmsg, nb, hz, hparse, hnext, hnb, hzsize⟩
        · rw [hparse]
          refine .inl ⟨[g], gs, [], rfl, by simp [← hz'], ?_, ?_⟩
          · rintro r rs' rfl
            exact List.length_pos_iff.2 (hgs r (by simp)).ne_nil
          · exact ⟨hst, hdrop, hdel', Or.inl ⟨rfl, rfl⟩, by simp⟩
        · rw [hparse]
          have hcont : content ([] ++ [nb]) = z' := by simp [hnb]
          have hzpos : 0 < z'.length := List.length_pos_iff.2 hz
          have hzlen : g.1.length + z'.length = (content (pre ++ [b])).length := by
            rw [← hz', List.length_append]
          have hgpos : 0 < g.1.length := List.length_pos_iff.2 hacc.ne_nil
          have hstream' : stream gs ++ t = content ([] ++ [nb]) ++ z := by
            rw [← hz', List.append_assoc] at hstream
            rw [hcont]
            exact List.append_cancel_left hstream
          have hrun' : (M.buffered size).run (M.init, 0) (content ([] ++ [nb])) =
              ByteMachine.withFill nb.body.length (M.run M.init z') := by
            rw [hcont, hnb, ByteMachine.buffered_run_room (by omega), Nat.zero_add]
          have := ih
            (c := { c with rmsg := some nmsg, nextMbuf := c.nextMbuf + 1,
                           received := c.received ++ [msg'] })
            (fun x hx => hgs x (by simp [hx])) hst hdrop hdel' hnext
            (by rw [hcont, wrap32_of_lt (by omega)]; omega) hrun' hstream'
            (show (content ([] ++ [nb])).length < fuel by rw [hcont]; omega)
          rw [hcont] at this
          rcases this with ⟨ds, rs, u, rfl, hu, hrs, hgood⟩ | ⟨hne, hfailed⟩
          · refine .inl ⟨g :: ds, rs, u, rfl, ?_, hrs, ?_⟩
            · rw [stream_cons, List.append_assoc, ← hu, hz']
            · simpa using hgood
          · refine .inr ⟨hne, ?_⟩
            simpa using hfailed

variable (hpos : 0 < size) {gs : List (List Byte × ω)}
  (hgs : ∀ g ∈ gs, (M.buffered size).Accepts (M.Safe size) (M.init, 0) g.1 g.2)

include hpos hgs

/-- One read. -/
theorem msgRecvChain_upTo {c : Receiver ρ} {s avail z : List Byte}
    (h : Going size M Rel Out gs c s) (hstream : stream gs ++ t = s ++ avail ++ z)
    (hwrap : ∀ x ∈ (msgRecvChain P size c avail).1.reads, wrap32 x ≠ 0) :
    ∃ k, (msgRecvChain P size c avail).2.1 = avail.drop k ∧
      ((msgRecvChain P size c avail).2.2 = true → 0 < k ∧ k ≤ avail.length) ∧
      ((msgRecvChain P size c avail).2.2 = false → avail.length ≤ k) ∧
      UpTo size M Rel Out gs t (msgRecvChain P size c avail).1 (s ++ avail.take k) := by
  obtain ⟨ds, rs, u, rfl, rfl, hrs, hgood⟩ := h
  obtain ⟨pre, b, v, a, x, hu, hheld, hl, hsafe, hstands, hc⟩ := hgood.held.withMbuf sim hpos
  generalize hw : withMbuf size c (recvNext P c) = cm at hheld hc
  obtain ⟨c₁, msg⟩ := cm
  have hsame : c₁.status = .ok ∧ c₁.dropped = [] ∧ c₁.received = c.received := by
    rcases hc with hc | hc <;> rw [show c₁ = _ from hc] <;>
      exact ⟨hgood.status, hgood.dropped, rfl⟩
  have hdel : List.Forall₂ (Delivered size M Out) c₁.received ds := hsame.2.2 ▸ hgood.delivered
  unfold msgRecvChain at hwrap ⊢
  simp only [hw] at hheld hwrap ⊢
  by_cases hav : avail = []
  · -- nothing at the socket: the message stays as it is, in a buffer with room
    refine ⟨0, by simp [hav], by simp [hav], by simp [hav],
      .inl ⟨ds, rs, u, rfl, by simp, hrs, ?_⟩⟩
    simp only [hav, if_true]
    exact ⟨hsame.1, hsame.2.1, hdel, Or.inr ⟨msg, pre, b, v, a, x, rfl, hheld, hu, hl, hsafe,
      .inl hstands⟩, hgood.counted⟩
  · simp only [if_neg hav] at hwrap ⊢
    have hgone : b.gone = [] := (hheld.filling b (by simp)).1
    have hr : recvRoom size msg = size - b.body.length := recvRoom_eq hheld.mhdr hgone
    have hroom := hstands.1
    set room := recvRoom size msg
    have hlen : (avail.take room).length = min room avail.length := List.length_take
    have havpos : 0 < avail.length := List.length_pos_iff.2 hav
    have hav' : avail = avail.take room ++ avail.drop room := (List.take_append_drop _ _).symm
    have hne : avail.take room ≠ [] := by
      rw [← List.length_pos_iff]
      omega
    obtain ⟨hheld', hcont⟩ := hheld.recvBytes sim (avail.take room) (by omega)
    rw [hu] at hcont
    have hnz : wrap32 (content (pre ++ [mbufCopy b (avail.take room)])).length ≠ 0 := by
      have hx := hwrap (msg.mlen + (avail.take room).length) (by simp)
      rw [hheld.mlen, hu] at hx
      rw [hcont]
      simp only [wrap32, List.length_append] at hx ⊢
      omega
    have hfut : stream rs ++ t =
        content (pre ++ [mbufCopy b (avail.take room)]) ++ (avail.drop room ++ z) := by
      simp only [stream_append, List.append_assoc] at hstream
      rw [List.append_cancel_left hstream, hcont]
      conv_lhs => rw [hav']
      simp only [List.append_assoc]
    have hrun : (M.buffered size).run (M.init, 0)
        (content (pre ++ [mbufCopy b (avail.take room)])) =
        ByteMachine.withFill (mbufCopy b (avail.take room)).body.length
          (M.run a (v ++ avail.take room)) := by
      rw [hcont, hl.run_append, hstands.2 _ hne (by omega), mbufCopy_body, List.length_append]
    have hbytes : (recvBytes msg (avail.take room)).bytes =
        content (pre ++ [mbufCopy b (avail.take room)]) := by
      rw [MsgBuf.bytes, hheld'.mhdr]
    have hloop := parseLoop_upTo
      (c := { c₁ with reads := c₁.reads ++ [msg.mlen + (avail.take room).length] })
      sim hsize ht (fun g hg => hgs g (by simp [hg])) hsame.1 hsame.2.1 hdel hheld' hnz hrun hfut
      (Nat.lt_succ_self _)
    rw [← hbytes] at hloop
    refine ⟨room, rfl, ?_, ?_, ?_⟩
    · intro hready
      have : room ≤ avail.length := by simpa using hready
      omega
    · intro hready
      have : ¬ room ≤ avail.length := by simpa using hready
      omega
    · rcases hloop with ⟨ds', rs', u', rfl, hu', hrs', hgood'⟩ | hfailed
      · refine .inl ⟨ds ++ ds', rs', u', by simp, ?_, hrs', hgood'⟩
        rw [stream_append, List.append_assoc (stream ds), List.append_assoc (stream ds), ← hu',
          hbytes, hcont]
      · exact .inr hfailed

theorem msgRecv_upTo {fuel : ℕ} {c : Receiver ρ} {s avail z : List Byte}
    (h : UpTo size M Rel Out gs t c s) (hstream : stream gs ++ t = s ++ avail ++ z)
    (hfuel : avail.length < fuel)
    (hwrap : ∀ x ∈ (msgRecv P size fuel c avail).reads, wrap32 x ≠ 0) :
    UpTo size M Rel Out gs t (msgRecv P size fuel c avail) (s ++ avail) := by
  induction fuel generalizing c s avail with
  | zero => omega
  | succ fuel ih =>
      rcases h with h | ⟨hne, hfailed⟩
      swap
      · -- the connection reads no more
        rw [msgRecv]
        simp only [hfailed.status]
        exact .inr ⟨hne, hfailed⟩
      have hst : c.status = .ok := by
        obtain ⟨_, _, _, _, _, _, hgood⟩ := h
        exact hgood.status
      rw [msgRecv] at hwrap ⊢
      simp only [hst] at hwrap ⊢
      have hone := msgRecvChain_upTo sim hsize ht hpos hgs h hstream
      generalize hres : msgRecvChain P size c avail = res at hone hwrap ⊢
      obtain ⟨c', rest, ready⟩ := res
      cases ready with
      | true =>
          simp only at hone hwrap ⊢
          have hpre := msgRecv_reads P size fuel c' rest
          obtain ⟨k, rfl, hready, -, hup⟩ := hone (fun x hx => hwrap x (hpre.subset hx))
          obtain ⟨hk, hkl⟩ := hready trivial
          have hcut : s ++ avail = s ++ avail.take k ++ avail.drop k := by
            rw [List.append_assoc, List.take_append_drop]
          rw [hcut]
          refine ih hup (by rw [hstream, hcut]) ?_ hwrap
          rw [List.length_drop]
          omega
      | false =>
          simp only at hone hwrap ⊢
          obtain ⟨k, -, -, hlast, hup⟩ := hone hwrap
          rwa [List.take_of_length_le (hlast trivial)] at hup

theorem recvRun_upTo {chunks : List (List Byte)} {z : List Byte}
    (hstream : stream gs ++ t = chunks.flatten ++ z)
    (hwrap : ∀ x ∈ (recvRun P size chunks).reads, wrap32 x ≠ 0) :
    UpTo size M Rel Out gs t (recvRun P size chunks) chunks.flatten := by
  induction chunks using List.reverseRecOn generalizing z with
  | nil =>
      refine .inl ⟨[], gs, [], rfl, rfl, ?_, ⟨rfl, rfl, .nil, Or.inl ⟨rfl, rfl⟩, by simp⟩⟩
      rintro r rs' rfl
      exact List.length_pos_iff.2 (hgs r (by simp)).ne_nil
  | append_singleton chunks chunk ih =>
      have hflat : (chunks ++ [chunk]).flatten = chunks.flatten ++ chunk := by simp
      rw [recvRun_concat] at hwrap ⊢
      rw [hflat] at hstream ⊢
      have hpre := msgRecv_reads P size (chunk.length + 1) (recvRun P size chunks) chunk
      have hup := ih (z := chunk ++ z) (by rw [hstream, List.append_assoc])
        (fun x hx => hwrap x (hpre.subset hx))
      exact msgRecv_upTo sim hsize ht hpos hgs hup hstream (Nat.lt_succ_self _) hwrap

omit ht in
/-- **Every frame of the stream is delivered, in order, and nothing else**, however the stream is
cut into chunks, if no read makes the recorded length of a message wrap to zero. -/
theorem recvRun_frames {chunks : List (List Byte)} (hstream : chunks.flatten = stream gs)
    (hwrap : ∀ x ∈ (recvRun P size chunks).reads, wrap32 x ≠ 0) :
    Good size M Rel Out (recvRun P size chunks) gs [] := by
  rcases recvRun_upTo sim hsize (.inl rfl) hpos hgs (z := []) (by rw [hstream]) hwrap with
    ⟨ds, rs, u, rfl, hu, hrs, hgood⟩ | ⟨hne, -⟩
  · rw [hstream, stream_append] at hu
    have hrest : stream rs = u := List.append_cancel_left hu
    cases rs with
    | nil =>
        rw [List.append_nil, show ([] : List Byte) = u from hrest]
        exact hgood
    | cons r rs' =>
        have := hrs r rs' rfl
        rw [← hrest, stream_cons, List.length_append] at this
        omega
  · exact absurd rfl hne

omit ht in
/-- **Malformed input behind the frames is reported**, and nothing else is delivered. -/
theorem recvRun_rejects {chunks : List (List Byte)} (hstream : chunks.flatten = stream gs ++ t)
    (hrej : (M.buffered size).Rejects (M.Safe size) (M.init, 0) t)
    (hwrap : ∀ x ∈ (recvRun P size chunks).reads, wrap32 x ≠ 0) :
    Failed size M Out (recvRun P size chunks) gs := by
  rcases recvRun_upTo sim hsize (.inr hrej) hpos hgs (z := []) (by rw [hstream, List.append_nil])
    hwrap with ⟨ds, rs, u, rfl, hu, hrs, hgood⟩ | ⟨-, hfailed⟩
  · -- all of the malformed input would have been read without an error
    rw [hstream, stream_append, List.append_assoc] at hu
    have hrest : stream rs ++ t = u := List.append_cancel_left hu
    cases rs with
    | nil =>
        rw [stream_nil, List.nil_append] at hrest
        subst hrest
        rcases hgood.held with ⟨-, hnil⟩ | ⟨_, _, _, _, _, x, -, -, -, hl, -⟩
        · exact absurd hnil hrej.ne_nil
        · have := hl.run_eq.symm.trans hrej.run_eq
          cases this
    | cons r rs' =>
        have := hrs r rs' rfl
        rw [← hrest, stream_cons, List.length_append, List.length_append] at this
        omega
  · exact hfailed

end Steps

/-! ### Where the buffers of a delivered message start -/

section Starts

variable {size : ℕ} {M : ByteMachine α ω} {Out : List Mbuf → ω → ρ → Prop} {ok wf mov : α → Prop}
  (hM : M.Tokenizes wf mov) (hok : ∀ a, ok a → (M.token a).length < size ∧ mov a)
  (hwf : wf M.init) (htok : M.token M.init = []) {msg : RecvMsg ρ} {f : List Byte × ω}
  (hacc : M.Accepts ok M.init f.1 f.2) (h : Delivered size M Out msg f)

include hM hok hwf htok hacc h

/-- A buffer other than the first starts where the open token started when a buffer was full. -/
theorem Delivered.cut {xs ys : List Mbuf} (heq : msg.mhdr = xs ++ ys) (hxs : xs ≠ [])
    (hys : ys ≠ []) :
    ∃ a r, f.1 = content xs ++ M.token a ++ r ∧ r ≠ [] ∧
      size ≤ (content xs).length + (M.token a).length ∧
      M.Leads ok M.init (content xs ++ M.token a) a ∧ ok a := by
  obtain ⟨pre, b, hm, hsplits, -, hb⟩ := h.chain
  obtain ⟨xs, x, rfl⟩ : ∃ xs' x, xs = xs' ++ [x] :=
    ⟨_, _, (List.dropLast_append_getLast hxs).symm⟩
  obtain ⟨zs, d, rfl⟩ : ∃ zs d, ys = zs ++ [d] :=
    ⟨_, _, (List.dropLast_append_getLast hys).symm⟩
  have hpre : pre = xs ++ x :: zs := by
    rw [hm, ← List.append_assoc] at heq
    simpa using (List.append_inj' heq rfl).1
  obtain ⟨a, ⟨r, hr⟩, hl, hfull⟩ := hsplits xs x zs hpre
  -- the buffer was full before the end of the frame
  have hrne : r ≠ [] := by
    rintro rfl
    rw [List.append_nil] at hr
    rw [hr] at hl
    have hdone := (hacc.buffered hM hok hwf htok (Nat.zero_le size)).run_append []
    rw [List.append_nil, hl.run_eq] at hdone
    cases hdone
  rw [← hr] at hacc
  obtain ⟨a', hw, hrest⟩ := hacc.split hrne
  obtain ⟨m, -, hw'⟩ := hw.buffered hM hok hwf htok (Nat.zero_le size)
  cases hl.unique hw'
  refine ⟨a, r, hr.symm, hrne, ?_, hw, hrest.ok_start⟩
  simp only [content_append, content_cons, content_nil, List.append_nil, List.length_append]
  omega

/-- **Where tokens can be moved, the buffers of a message start outside of tokens.** -/
theorem Delivered.starts_token {n : ℕ} (hn : Starts msg.mhdr n) :
    ∃ a, M.Leads ok M.init (f.1.take n) a ∧ M.token a = [] ∧ n < f.1.length := by
  obtain ⟨xs, c, ys, heq, rfl⟩ := hn
  by_cases hxs : xs = []
  · subst hxs
    exact ⟨M.init, rfl, htok, List.length_pos_iff.2 hacc.ne_nil⟩
  · obtain ⟨a, r, hf, hr, -, hl, hoka⟩ := h.cut hM hok hwf htok hacc heq hxs (by simp)
    have hlt : (content xs).length < f.1.length := by
      rw [hf, List.length_append, List.length_append]
      have := List.length_pos_iff.2 hr
      omega
    have htake : f.1.take (content xs).length = content xs := by
      rw [hf, List.append_assoc, List.take_left]
    rw [htake]
    by_cases hne : M.token a = []
    · rw [hne, List.append_nil] at hl
      exact ⟨a, hl, hne, hlt⟩
    · obtain ⟨w, hcut, hrew, hclosed⟩ := (hl.rewind hM hwf htok).2 hne (hok a hoka).2
      cases List.append_cancel_right hcut
      exact ⟨M.rewind a, hrew, hclosed, hlt⟩

/-- What is read before the first buffer is full, and ends outside of a token, is in the first
buffer. -/
theorem Delivered.first_buffer {v z : List Byte} {a₀ : α} (hv : f.1 = v ++ z)
    (hlen : v.length ≤ size) (hl₀ : M.Leads ok M.init v a₀) (htok₀ : M.token a₀ = []) :
    ∃ b bs, msg.mhdr = b :: bs ∧ v <+: b.body := by
  obtain ⟨b, bs, hm⟩ : ∃ b bs, msg.mhdr = b :: bs := by
    obtain ⟨pre, b, hm, -⟩ := h.chain
    exact List.exists_cons_of_ne_nil (by simp [hm])
  have hbytes : content (b :: bs) = f.1 := by rw [← hm, ← h.bytes]; rfl
  refine ⟨b, bs, hm, ?_⟩
  by_cases hbs : bs = []
  · rw [hbs, content_cons, content_nil, List.append_nil] at hbytes
    exact ⟨z, by rw [hbytes, hv]⟩
  · obtain ⟨a, r, hf, -, hfull, hl, -⟩ := h.cut hM hok hwf htok hacc
      (show msg.mhdr = [b] ++ bs from hm) (by simp) hbs
    rw [content_cons, content_nil, List.append_nil] at hf hfull hl
    -- the token was opened behind `v`
    obtain ⟨w, hw⟩ : v <+: b.body ++ M.token a := by
      refine List.prefix_of_prefix_length_le ⟨z, hv.symm⟩ ⟨r, hf.symm⟩ ?_
      rw [List.length_append]
      omega
    rw [← hw] at hl
    obtain ⟨a₁, h₁, h₂⟩ := ByteMachine.leads_append.1 hl
    cases h₁.unique hl₀
    have hle := h₂.token_length_le hM (hl₀.rewind hM hwf htok).1
    have hcount := congrArg List.length hw
    rw [htok₀, List.length_nil] at hle
    rw [List.length_append, List.length_append] at hcount
    exact List.prefix_of_prefix_length_le ⟨w, hw⟩ (List.prefix_append _ _) (by omega)

end Starts

end CacheProxy
