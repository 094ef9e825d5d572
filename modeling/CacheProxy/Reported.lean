/-
**What is reported, whatever arrives.**

`CacheProxy/Framing.lean` follows a stream that is known to consist of frames.  Here the stream is
any list of bytes, in any chunks: what can be said of a message that is reported is what the machine
keeps while it reads.  A token that is moved to a new buffer is read again, which must lead back to
what is kept, or fail; and a token that fills a whole buffer is not read again at all, because the
next read goes to a new buffer.  Where this breaks what is kept, the message is lost, which is a
property of its bytes.

Main definitions:

* `Keeps` — what a machine keeps while it reads, and when a message is lost.

Main results:

* `Keeps.recvRun_reported` — **every message that is reported has what the machine keeps**, or is
  lost.
-/

import CacheProxy.Framing

namespace CacheProxy

variable {α ω ρ : Type}

/-- **What a machine keeps while it reads**: `I` holds of the bytes read of the message, the number
of those in the last buffer and the state, `F` of the bytes of a message and its result, and `L` of
the bytes of a message that is lost. -/
structure Keeps (size : ℕ) (M : ByteMachine α ω) (I : List Byte → ℕ → α → Prop)
    (F : List Byte → ω → Prop) (L : List Byte → Prop) : Prop where
  init : I [] 0 M.init
  more : ∀ {u n a c a'}, I u n a → n < size → M.step a c = .more a' → I (u ++ [c]) (n + 1) a'
  done : ∀ {u n a c o}, I u n a → n < size → M.step a c = .done o → F (u ++ [c]) o
  closed : ∀ a, M.token (M.rewind a) = []
  /-- a new buffer -/
  fresh : ∀ {u a}, I u size a → M.token a = [] → I u 0 a
  /-- the token is moved to a new buffer and read again -/
  moved : ∀ {v a}, I (v ++ M.token a) size a → M.token a ≠ [] → (M.token a).length < size →
    L v ∨ M.run (M.rewind a) (M.token a) = .fail ∨
      ∃ a', M.run (M.rewind a) (M.token a) = .more a' ∧ I (v ++ M.token a) (M.token a).length a'
  /-- the token fills a buffer, and the machine goes on behind it -/
  stuck : ∀ {u a}, I u size a → M.token a ≠ [] → size ≤ (M.token a).length →
    I u size (M.rewind a) ∨ L u
  lost : ∀ {u} (v : List Byte), L u → L (u ++ v)

section

variable {size : ℕ} {M : ByteMachine α ω} {I : List Byte → ℕ → α → Prop} {F : List Byte → ω → Prop}
  {L : List Byte → Prop}

theorem Keeps.run (h : Keeps size M I F L) (bs : List Byte) : ∀ {u : List Byte} {n : ℕ} {a a' : α},
    I u n a → n + bs.length ≤ size → M.run a bs = .more a' → I (u ++ bs) (n + bs.length) a' := by
  induction bs with
  | nil =>
    intro u n a a' hI _ hrun
    cases hrun
    simpa using hI
  | cons c bs ih =>
    intro u n a a' hI hn hrun
    rw [List.length_cons] at hn ⊢
    rw [ByteMachine.run_cons] at hrun
    cases hs : M.step a c with
    | more =>
      rw [hs] at hrun
      have hkept := ih (h.more hI (by omega) hs) (by omega) hrun
      rw [Nat.add_right_comm, Nat.add_assoc] at hkept
      simpa using hkept
    | done =>
      rw [hs] at hrun
      cases hrun
    | fail =>
      rw [hs] at hrun
      cases hrun

theorem Keeps.run_done (h : Keeps size M I F L) (bs : List Byte) {o : ω} {rest : List Byte} :
    ∀ {u : List Byte} {n : ℕ} {a : α}, I u n a → n + bs.length ≤ size → M.run a bs = .done o rest →
      ∃ used, bs = used ++ rest ∧ F (u ++ used) o := by
  induction bs with
  | nil =>
    intro u n a _ _ hrun
    cases hrun
  | cons c bs ih =>
    intro u n a hI hn hrun
    rw [List.length_cons] at hn
    rw [ByteMachine.run_cons] at hrun
    cases hs : M.step a c with
    | more =>
      rw [hs] at hrun
      obtain ⟨used, rfl, hF⟩ := ih (h.more hI (by omega) hs) (by omega) hrun
      exact ⟨c :: used, rfl, by simpa using hF⟩
    | done =>
      rw [hs] at hrun
      cases hrun
      exact ⟨[c], rfl, h.done hI (by omega) hs⟩
    | fail =>
      rw [hs] at hrun
      cases hrun

end

/-! ### Messages being read -/

namespace Keeps

section

variable (size : ℕ) (M : ByteMachine α ω) (Rel : List Mbuf → ℕ → α → ρ → Prop)
  (Out : List Mbuf → ω → ρ → Prop) (I : List Byte → ℕ → α → Prop) (F : List Byte → ω → Prop)
  (L : List Byte → Prop)

/-- The registers of the message stand for the state `a`. -/
structure Linked (next : ℕ) (msg : RecvMsg ρ) (pre : List Mbuf) (b : Mbuf) (a : α) : Prop where
  ids : ∀ x ∈ pre ++ [b], x.id < next
  pos_le : msg.pos ≤ b.data.length
  rel : Rel (pre ++ [b]) msg.pos a msg.regs

/-- What is kept of the message, up to the end of the bytes `w` behind the marker that were read
before, or the message is lost. -/
def Follows (next : ℕ) (msg : RecvMsg ρ) (pre : List Mbuf) (b : Mbuf) : Prop :=
  L (content pre) ∨ ∃ a w, Linked Rel next msg pre b a ∧ w <+: b.data.drop msg.pos ∧
    (M.run a w = .fail ∨ ∃ a', M.run a w = .more a' ∧
      I (content pre ++ b.data.take msg.pos ++ w) (msg.pos + w.length) a')

/-- A message that can be parsed. -/
def Ready (next : ℕ) (msg : RecvMsg ρ) : Prop :=
  ∃ pre b, msg.mhdr = pre ++ [b] ∧ Filling size (pre ++ [b]) ∧ Follows M Rel I L next msg pre b

/-- A message that has been parsed: when its last buffer is full there is no open token. -/
def Resting (next : ℕ) (msg : RecvMsg ρ) : Prop :=
  ∃ pre b, msg.mhdr = pre ++ [b] ∧ Filling size (pre ++ [b]) ∧
    ((b.data.length ≠ size ∧ Follows M Rel I L next msg pre b) ∨
      (b.data.length = size ∧ (L (content (pre ++ [b])) ∨
        ∃ a, Linked Rel next msg pre b a ∧ M.token a = [] ∧ I (content (pre ++ [b])) size a)))

/-- A message that has been reported. -/
def Reported (msg : RecvMsg ρ) : Prop := (∃ o, Out msg.mhdr o msg.regs ∧ F msg.bytes o) ∨
    L msg.bytes

/-- What holds behind a call of the parser, which may go on with the next message. -/
structure Parsed (res : Receiver ρ × Bool) : Prop where
  reported : ∀ m ∈ res.1.received, Reported Out F L m
  going : res.2 = true → ∀ m, res.1.rmsg = some m → Ready size M Rel I L res.1.nextMbuf m
  resting : res.2 = false → res.1.status = .ok → ∀ m, res.1.rmsg = some m →
    Resting size M Rel I L res.1.nextMbuf m

/-- What holds of the connection between reads. -/
structure Kept (c : Receiver ρ) : Prop where
  reported : ∀ m ∈ c.received, Reported Out F L m
  resting : c.status = .ok → ∀ m, c.rmsg = some m → Resting size M Rel I L c.nextMbuf m

end

/-- A buffer that is cut in two. -/
theorem filling_split {size : ℕ} {pre : List Mbuf} {b : Mbuf} (h : Filling size (pre ++ [b]))
    (pos id : ℕ) :
    Filling size (pre ++ [b.truncate pos]) ∧
      Filling size [mbufCopy (mbufGet id) (b.data.drop pos)] := by
  obtain ⟨hpre, hb⟩ := filling_append.1 h
  obtain ⟨hgone, hlen⟩ := filling_singleton.1 hb
  refine ⟨filling_append.2 ⟨hpre, filling_singleton.2 ⟨?_, ?_⟩⟩, filling_singleton.2 ⟨rfl, ?_⟩⟩
  · simp [Mbuf.truncate, hgone]
  · have : (b.truncate pos).body.length ≤ b.body.length := by
      simp [Mbuf.truncate]
    omega
  · have : (b.data.drop pos).length ≤ b.body.length := by
      simp [Mbuf.data, hgone]
    simp only [mbufCopy_body, mbufGet_body, List.nil_append]
    omega

section Steps

variable {size : ℕ} {P : Parser ρ} {M : ByteMachine α ω} {Rel : List Mbuf → ℕ → α → ρ → Prop}
  {Out : List Mbuf → ω → ρ → Prop} {I : List Byte → ℕ → α → Prop} {F : List Byte → ω → Prop}
  {L : List Byte → Prop} (hK : Keeps size M I F L)

include hK

theorem lost_content {pre : List Mbuf} (b : Mbuf) (h : L (content pre)) :
    L (content (pre ++ [b])) := by
  rw [content_append]
  exact hK.lost _ h

/-- A lost message rests. -/
theorem resting_of_lost {next : ℕ} {msg : RecvMsg ρ} {pre : List Mbuf} {b : Mbuf}
    (hm : msg.mhdr = pre ++ [b]) (hfill : Filling size (pre ++ [b])) (h : L (content pre)) :
    Resting size M Rel I L next msg := by
  refine ⟨pre, b, hm, hfill, ?_⟩
  by_cases hfull : b.data.length = size
  · exact .inr ⟨hfull, .inl (lost_content hK b h)⟩
  · exact .inl ⟨hfull, .inl h⟩

/-- A new message. -/
theorem ready_start (sim : Simulation size P M Rel Out) (next mlen : ℕ) {bs : List Byte}
    (hlen : bs.length ≤ size) :
    Ready size M Rel I L (next + 1)
      { mhdr := [mbufCopy (mbufGet next) bs], mlen := mlen, regs := P.init } := by
  refine ⟨[], _, rfl, filling_singleton.2 ⟨rfl, hlen⟩,
    .inr ⟨M.init, [], ⟨?_, Nat.zero_le _, sim.start _⟩,
    List.nil_prefix, .inr ⟨M.init, rfl, ?_⟩⟩⟩
  · simp
  · simpa using hK.init

/-- **A call that reports a message**: what is behind it becomes the next message. -/
theorem msgParsed_kept (sim : Simulation size P M Rel Out) (c : Receiver ρ) (msg : RecvMsg ρ)
    {pre : List Mbuf} {b : Mbuf} (hc : ∀ m ∈ c.received, Reported Out F L m)
    (hm : msg.mhdr = pre ++ [b]) (hfill : Filling size (pre ++ [b]))
    (hrep : ∀ mlen, Reported Out F L
      { msg with mhdr := pre ++ [b.truncate msg.pos], mlen := mlen }) :
    Parsed size M Rel Out I F L (msgParsed P c msg, (msgParsed P c msg).rmsg.isSome) := by
  have hsnoc : ∀ m', Reported Out F L m' → ∀ m ∈ c.received ++ [m'], Reported Out F L m := by
    intro m' hm' m hmem
    rcases List.mem_append.1 hmem with hmem | hmem
    · exact hc m hmem
    · exact List.mem_singleton.1 hmem ▸ hm'
  by_cases hend : msg.pos = b.data.length
  · rw [msgParsed_of_end c msg hm hend]
    refine ⟨hsnoc msg ?_, by simp, by simp⟩
    have := hrep msg.mlen
    rwa [hend, Mbuf.truncate_data_length, ← hm] at this
  · rw [msgParsed_of_leftover c msg hm hend]
    refine ⟨hsnoc _ (hrep _), ?_, by simp⟩
    rintro - m hsome
    cases hsome
    refine ready_start hK sim _ _ ?_
    obtain ⟨hgone, hlen⟩ := hfill b (by simp)
    simp only [Mbuf.data, hgone, List.nil_append, List.length_drop]
    omega

omit hK in
/-- A message that is dropped, or an error. -/
theorem parsed_of_received {c c' : Receiver ρ} (hc : ∀ m ∈ c.received, Reported Out F L m)
    (hrec : c'.received = c.received) (hend : c'.rmsg = none ∨ c'.status ≠ .ok) :
    Parsed size M Rel Out I F L (c', false) := by
  refine ⟨by rw [hrec]; exact hc, by simp, fun _ hok m hsome => ?_⟩
  rcases hend with hnone | hne
  · rw [hnone] at hsome
    cases hsome
  · exact absurd hok hne

/-- A lost message is parsed. -/
theorem msgParse_lost (sim : Simulation size P M Rel Out) {c : Receiver ρ} {msg : RecvMsg ρ}
    {pre : List Mbuf} {b : Mbuf} (hc : ∀ m ∈ c.received, Reported Out F L m)
    (hm : msg.mhdr = pre ++ [b]) (hfill : Filling size (pre ++ [b])) (hL : L (content pre)) :
    Parsed size M Rel Out I F L (msgParse P size c msg) := by
  cases hempty : msgEmpty msg.toMsgBuf with
  | true =>
    rw [msgParse_of_empty hempty]
    exact parsed_of_received hc rfl (.inl rfl)
  | false =>
    rw [msgParse_of_nonempty hempty hm]
    rcases P.parse size b msg.pos msg.regs with ⟨result, pos, regs⟩
    cases result with
    | ok =>
      exact msgParsed_kept hK sim c { msg with pos := pos, regs := regs } hc hm hfill
        fun mlen => .inr (lost_content hK _ hL)
    | error => exact parsed_of_received hc rfl (.inr (by simp))
    | again =>
      refine ⟨hc, by simp, fun _ _ m hsome => ?_⟩
      cases hsome
      exact resting_of_lost hK hm hfill hL
    | repair =>
      change Parsed size M Rel Out I F L (msgRepair c { msg with pos := pos, regs := regs }, false)
      rw [msgRepair_eq c { msg with pos := pos, regs := regs } hm]
      refine ⟨hc, by simp, fun _ _ m hsome => ?_⟩
      cases hsome
      obtain ⟨hl, hr⟩ := filling_split hfill pos c.nextMbuf
      have hchain : ∀ x y, pre ++ [x, y] = pre ++ [x] ++ [y] := by simp
      exact resting_of_lost hK (hchain _ _) (filling_append.2 ⟨hl, hr⟩) (lost_content hK _ hL)

/-- **A token is moved to a new buffer**, or fills one. -/
theorem resting_moved {next mlen : ℕ} {pre : List Mbuf} {b nb : Mbuf} {a : α} {r : ρ}
    (htok : M.token a ≠ []) (hfill : Filling size (pre ++ [b] ++ [nb]))
    (hids : ∀ x ∈ pre ++ [b] ++ [nb], x.id < next) (hdata : nb.data = M.token a)
    (hrel : Rel (pre ++ [b] ++ [nb]) 0 (M.rewind a) r)
    (hI : I (content (pre ++ [b] ++ [nb])) size a) :
    Resting size M Rel I L
      next { mhdr := pre ++ [b] ++ [nb], mlen := mlen, pos := 0, regs := r } := by
  have hbody : nb.body = M.token a := hfill.data_eq.symm.trans hdata
  have hlink : Linked Rel next { mhdr := pre ++ [b] ++ [nb], mlen := mlen, pos := 0, regs := r }
      (pre ++ [b]) nb (M.rewind a) := ⟨hids, Nat.zero_le _, hrel⟩
  refine ⟨pre ++ [b], nb, rfl, hfill, ?_⟩
  by_cases hfull : nb.data.length = size
  · refine .inr ⟨hfull, ?_⟩
    rcases hK.stuck hI htok (by rw [← hdata, hfull]) with h | h
    · exact .inr ⟨M.rewind a, hlink, hK.closed a, h⟩
    · exact .inl h
  · refine .inl ⟨hfull, ?_⟩
    have hcat : content (pre ++ [b] ++ [nb]) = content (pre ++ [b]) ++ M.token a := by
      rw [content_append, ← hbody]
      simp
    rw [hcat] at hI
    have hroom : (M.token a).length < size := by
      have := (hfill nb (by simp)).2
      rw [hdata] at hfull
      rw [hbody] at this
      omega
    rcases hK.moved hI htok hroom with h | h | ⟨a', hrun, h⟩
    · exact .inl h
    · exact .inr ⟨M.rewind a, M.token a, hlink, by simp [hdata], .inl h⟩
    · exact .inr ⟨M.rewind a, M.token a, hlink, by simp [hdata], .inr ⟨a', hrun, by simpa using h⟩⟩

/-- **A call of the parser** keeps what the machine keeps. -/
theorem msgParse_kept (sim : Simulation size P M Rel Out) {c : Receiver ρ} {msg : RecvMsg ρ}
    (hc : ∀ m ∈ c.received, Reported Out F L m) (h : Ready size M Rel I L c.nextMbuf msg) :
    Parsed size M Rel Out I F L (msgParse P size c msg) := by
  obtain ⟨pre, b, hm, hfill, hL | ⟨a, w, hlink, ⟨z, hz⟩, hread⟩⟩ := h
  · exact msgParse_lost hK sim hc hm hfill hL
  obtain ⟨hgone, hlen⟩ := hfill b (by simp)
  have hdata : b.data = b.body := hfill.data_eq
  have hall : content pre ++ b.data.take msg.pos ++ w ++ z = content (pre ++ [b]) := by
    rw [List.append_assoc, List.append_assoc, hz, List.take_append_drop, hdata]
    simp
  have hfit : msg.pos + w.length + z.length = b.data.length := by
    have := congrArg List.length hz
    rw [List.length_append, List.length_drop] at this
    have := hlink.pos_le
    omega
  have hroom : msg.pos + w.length + z.length ≤ size := by
    rw [hfit, hdata]
    exact hlen
  -- the bytes that were read before lead to where the machine was
  have hkept : M.run a (b.data.drop msg.pos) = .fail ∨
      ∃ a₁, M.run a (b.data.drop msg.pos) = M.run a₁ z ∧
        I (content pre ++ b.data.take msg.pos ++ w) (msg.pos + w.length) a₁ := by
    rw [← hz]
    rcases hread with hfail | ⟨a₁, hrun, hI⟩
    · exact .inl (ByteMachine.run_append_fail hfail z)
    · exact .inr ⟨a₁, ByteMachine.run_append_more hrun z, hI⟩
  cases hempty : msgEmpty msg.toMsgBuf with
  | true =>
    rw [msgParse_of_empty hempty]
    exact parsed_of_received hc rfl (.inl rfl)
  | false =>
    rw [msgParse_of_nonempty hempty hm]
    cases hrun : M.run a (b.data.drop msg.pos) with
    | fail =>
      have hfail := sim.parse_fail hgone hlink.rel hlink.pos_le hrun
      rcases hres : P.parse size b msg.pos msg.regs with ⟨result, pos, regs⟩
      rw [hres] at hfail
      cases hfail
      exact parsed_of_received hc rfl (.inr (by simp))
    | done o rest =>
      obtain ⟨r', hparse, hout⟩ := sim.parse_done hgone hlink.rel hlink.pos_le hrun
      obtain ⟨a₁, hrun₁, hI⟩ := hkept.resolve_left (by rw [hrun]; intro hfail; cases hfail)
      obtain ⟨used, hused, hF⟩ := hK.run_done _ hI hroom (hrun₁.symm.trans hrun)
      have hcat : content (pre ++ [b]) = (content pre ++ b.data.take msg.pos ++ w ++ used) ++
        rest := by
        rw [← hall, hused]
        simp
      have hrest : rest.length ≤ b.body.length := by
        have hlen := congrArg List.length hz
        rw [hused, List.length_drop, List.length_append, List.length_append, hdata] at hlen
        omega
      have hcut := (content_truncate hgone hcat hrest).2
      rw [hparse]
      exact msgParsed_kept hK sim c { msg with pos := b.data.length - rest.length, regs := r' } hc
        hm hfill
        fun mlen => .inl ⟨o, hout, by rw [MsgBuf.bytes, hcut]; exact hF⟩
    | more a' =>
      obtain ⟨a₁, hrun₁, hI⟩ := hkept.resolve_left (by rw [hrun]; intro hfail; cases hfail)
      have hI' := hK.run _ hI hroom (hrun₁.symm.trans hrun)
      rw [hall, hfit] at hI'
      by_cases hcase : M.token a' = [] ∨ b.data.length ≠ size
      · obtain ⟨r', hparse, hrel⟩ := sim.parse_more hgone hlink.rel hlink.pos_le hrun hcase
        rw [hparse]
        refine ⟨hc, by simp, fun _ _ m hsome => ?_⟩
        cases hsome
        have hlink' : Linked Rel c.nextMbuf
          { msg with pos := b.data.length, regs := r' } pre b a' :=
          ⟨hlink.ids, Nat.le_refl _, hrel⟩
        refine ⟨pre, b, hm, hfill, ?_⟩
        by_cases hfull : b.data.length = size
        · rw [hfull] at hI'
          exact .inr ⟨hfull, .inr ⟨a', hlink', hcase.resolve_right (not_not.2 hfull), hI'⟩⟩
        · refine .inl ⟨hfull, .inr ⟨a', [], hlink', List.nil_prefix, .inr ⟨a', rfl, ?_⟩⟩⟩
          change I (content pre ++ b.data.take b.data.length ++ []) (b.data.length + 0) a'
          rw [List.take_length, hdata]
          simpa [hdata] using hI'
      · rw [not_or, not_not] at hcase
        obtain ⟨htok, hfull⟩ := hcase
        obtain ⟨hdrop, r', hparse, hrel⟩ :=
          sim.parse_repair hgone hlink.rel hlink.pos_le hrun htok hfull
        rw [hparse]
        change Parsed size M Rel Out I F L
          (msgRepair c { msg with pos := size - (M.token a').length, regs := r' }, false)
        rw [msgRepair_eq c { msg with pos := size - (M.token a').length, regs := r' } hm]
        refine ⟨hc, by simp, fun _ _ m hsome => ?_⟩
        cases hsome
        obtain ⟨hl, hr⟩ := filling_split hfill (size - (M.token a').length) c.nextMbuf
        have hchain : ∀ x y, pre ++ [x, y] = pre ++ [x] ++ [y] := by simp
        have hnew : (mbufCopy (mbufGet c.nextMbuf)
          (b.data.drop (size - (M.token a').length))).data =
            M.token a' := by
          rw [mbufCopy_data, mbufGet_data, List.nil_append, hdrop]
        have hrel' := hrel _ hnew fun x hx => Nat.ne_of_lt (hlink.ids x hx)
        have hcat : content (pre ++ [b.truncate (size - (M.token a').length)] ++
            [mbufCopy (mbufGet c.nextMbuf) (b.data.drop (size - (M.token a').length))]) =
              content (pre ++ [b]) := by
          have := Mbuf.truncate_body_append (b := b)
            (show b.gone.length ≤ size - (M.token a').length by simp [hgone])
          simp [← this]
        have hids : ∀ x ∈ pre ++ [b.truncate (size - (M.token a').length)] ++
            [mbufCopy (mbufGet c.nextMbuf) (b.data.drop (size - (M.token a').length))],
              x.id < c.nextMbuf + 1 := by
          intro x hx
          simp only [List.mem_append, List.mem_singleton] at hx
          rcases hx with (hx | rfl) | rfl
          · exact Nat.lt_succ_of_lt (hlink.ids x (by simp [hx]))
          · exact Nat.lt_succ_of_lt (hlink.ids b (by simp))
          · exact Nat.lt_succ_self _
        simp only [hchain] at hrel' ⊢
        rw [hfull] at hI'
        exact resting_moved hK htok (filling_append.2 ⟨hl, hr⟩) hids hnew hrel'
          (by rw [hcat]; exact hI')

/-- **All calls behind a read.** -/
theorem parseLoop_kept (sim : Simulation size P M Rel Out) (fuel : ℕ) :
    ∀ {c : Receiver ρ} {msg : RecvMsg ρ}, (∀ m ∈ c.received, Reported Out F L m) →
      Ready size M Rel I L c.nextMbuf msg →
        Kept size M Rel Out I F L (parseLoop P size fuel c msg) := by
  induction fuel with
  | zero => exact fun hc _ => ⟨hc, fun hok => nomatch hok⟩
  | succ fuel ih =>
    intro c msg hc h
    have hparsed := msgParse_kept hK sim hc h
    rw [parseLoop]
    rcases hres : msgParse P size c msg with ⟨c', flag⟩
    rw [hres] at hparsed
    cases flag with
    | false => exact ⟨hparsed.reported, hparsed.resting rfl⟩
    | true =>
      dsimp only
      cases hr : c'.rmsg with
      | none => exact ⟨hparsed.reported, fun _ m hsome => by rw [hr] at hsome; cases hsome⟩
      | some nmsg => exact ih hparsed.reported (hparsed.going rfl nmsg hr)

/-- The message that a read extends. -/
theorem withMbuf_kept (sim : Simulation size P M Rel Out)
    (jump : ∀ {pre b p a r nb}, Rel (pre ++ [b]) p a r → M.token a = [] →
      (∀ x ∈ pre ++ [b], x.id ≠ nb.id) → Rel (pre ++ [b] ++ [nb]) 0 a r)
    (hpos : 0 < size) {c : Receiver ρ} (h : Kept size M Rel Out I F L c) (hok : c.status = .ok) :
    (withMbuf size c (recvNext P c)).1.received = c.received ∧
      needsMbuf size (withMbuf size c (recvNext P c)).2 = false ∧
      Ready size M Rel I L (withMbuf size c (recvNext P c)).1.nextMbuf
        (withMbuf size c (recvNext P c)).2 := by
  cases hr : c.rmsg with
  | none =>
    have hw : withMbuf size c (recvNext P c) =
        ({ c with nextMbuf := c.nextMbuf + 1 },
          { mhdr := [mbufGet c.nextMbuf], regs := P.init }) := by
      simp [withMbuf, recvNext, hr, needsMbuf]
    rw [hw]
    refine ⟨rfl, by simp [needsMbuf, mbufFull, hpos.ne], ?_⟩
    have hready : Ready size M Rel I L (c.nextMbuf + 1)
        { mhdr := [mbufCopy (mbufGet c.nextMbuf) []], mlen := 0, regs := P.init } :=
      ready_start hK sim _ _ (Nat.zero_le _)
    exact hready
  | some msg =>
    obtain ⟨pre, b, hm, hfill, hrest⟩ := h.resting hok msg hr
    have hnext : recvNext P c = msg := by simp [recvNext, hr]
    have hneed : needsMbuf size msg = decide (b.data.length = size) := by
      simp [needsMbuf, hm, mbufFull, beq_eq_decide]
    rw [hnext]
    rcases hrest with ⟨hroom, hfollows⟩ | ⟨hfull, hrest⟩
    · have hw : withMbuf size c msg = (c, msg) := by simp [withMbuf, hneed, hroom]
      rw [hw]
      exact ⟨rfl, by simp [hneed, hroom], pre, b, hm, hfill, hfollows⟩
    · have hw : withMbuf size c msg =
          ({ c with nextMbuf := c.nextMbuf + 1 },
            { msg with mhdr := pre ++ [b] ++ [mbufGet c.nextMbuf], pos := 0 }) := by
        simp [withMbuf, hneed, hfull, hm]
      rw [hw]
      refine ⟨rfl, by simp [needsMbuf, mbufFull, hpos.ne], pre ++ [b], mbufGet c.nextMbuf, rfl,
        filling_append.2 ⟨hfill, by simp [mbufGet]⟩, ?_⟩
      rcases hrest with hL | ⟨a, hlink, htok, hI⟩
      · exact .inl hL
      · refine .inr ⟨a, [], ⟨?_, Nat.zero_le _, jump hlink.rel htok fun x hx => ?_⟩,
          List.nil_prefix,
          .inr ⟨a, rfl, by simpa using hK.fresh hI htok⟩⟩
        · intro x hx
          rcases List.mem_append.1 hx with hx | hx
          · exact Nat.lt_succ_of_lt (hlink.ids x hx)
          · rw [List.mem_singleton.1 hx]
            exact Nat.lt_succ_self _
        · exact Nat.ne_of_lt (hlink.ids x hx)

omit hK in
/-- A message with room in its last buffer rests. -/
theorem Ready.resting {next : ℕ} {msg : RecvMsg ρ} (h : Ready size M Rel I L next msg)
    (hroom : needsMbuf size msg = false) : Resting size M Rel I L next msg := by
  obtain ⟨pre, b, hm, hfill, hfollows⟩ := h
  have hne : b.data.length ≠ size := by
    simpa [needsMbuf, hm, mbufFull] using hroom
  exact ⟨pre, b, hm, hfill, .inl ⟨hne, hfollows⟩⟩

omit hK in
/-- Bytes that are read come behind the marker. -/
theorem Ready.recvBytes (sim : Simulation size P M Rel Out) {next : ℕ} {msg : RecvMsg ρ}
    (h : Ready size M Rel I L next msg) (avail : List Byte) :
    Ready size M Rel I L next (CacheProxy.recvBytes msg (avail.take (recvRoom size msg))) := by
  obtain ⟨pre, b, hm, hfill, hfollows⟩ := h
  obtain ⟨hpre, hb⟩ := filling_append.1 hfill
  obtain ⟨hgone, hlen⟩ := filling_singleton.1 hb
  refine ⟨pre, _, recvBytes_mhdr hm _, filling_append.2 ⟨hpre, filling_singleton.2 ⟨hgone, ?_⟩⟩, ?_⟩
  · rw [mbufCopy_body, List.length_append, List.length_take, recvRoom_eq hm hgone]
    omega
  · rcases hfollows with hL | ⟨a, w, hlink, hw, hread⟩
    · exact .inl hL
    · refine .inr ⟨a, w, ⟨?_, ?_, sim.grow _ hlink.rel hlink.pos_le⟩, ?_, ?_⟩
      · intro x hx
        rcases List.mem_append.1 hx with hx | hx
        · exact hlink.ids x (by simp [hx])
        · rw [List.mem_singleton.1 hx]
          exact hlink.ids b (by simp)
      · have := hlink.pos_le
        rw [mbufCopy_data, List.length_append]
        change msg.pos ≤ _
        omega
      · rw [mbufCopy_data]
        change w <+: (b.data ++ _).drop msg.pos
        rw [List.drop_append_of_le_length hlink.pos_le]
        exact hw.trans (List.prefix_append _ _)
      · rw [mbufCopy_data]
        change M.run a w = .fail ∨ ∃ a', M.run a w = .more a' ∧
          I (content pre ++ (b.data ++ _).take msg.pos ++ w) (msg.pos + w.length) a'
        rwa [List.take_append_of_le_length hlink.pos_le]

variable (sim : Simulation size P M Rel Out)
  (jump : ∀ {pre b p a r nb}, Rel (pre ++ [b]) p a r → M.token a = [] →
    (∀ x ∈ pre ++ [b], x.id ≠ nb.id) → Rel (pre ++ [b] ++ [nb]) 0 a r)
  (hpos : 0 < size)

include sim jump hpos

theorem msgRecvChain_kept {c : Receiver ρ} (h : Kept size M Rel Out I F L c) (hok : c.status = .ok)
    (avail : List Byte) : Kept size M Rel Out I F L (msgRecvChain P size c avail).1 := by
  obtain ⟨hrec, hroom, hready⟩ := withMbuf_kept hK sim jump hpos h hok
  unfold msgRecvChain
  dsimp only
  split
  · refine ⟨by rw [show _ = c.received from hrec]; exact h.reported, fun _ m hsome => ?_⟩
    cases hsome
    exact hready.resting hroom
  · exact parseLoop_kept hK sim _ (by rw [show _ = c.received from hrec]; exact h.reported)
      (hready.recvBytes sim avail)

theorem msgRecv_kept (fuel : ℕ) : ∀ {c : Receiver ρ} {avail : List Byte},
    Kept size M Rel Out I F L c → Kept size M Rel Out I F L (msgRecv P size fuel c avail) := by
  induction fuel with
  | zero => exact fun h => h
  | succ fuel ih =>
    intro c avail h
    rw [msgRecv]
    split
    · next hok =>
      have hchain := msgRecvChain_kept hK sim jump hpos h hok avail
      split
      · next hres =>
        rw [hres] at hchain
        exact ih hchain
      · next hres =>
        rw [hres] at hchain
        exact hchain
    · exact h

/-- **Every message that is reported has what the machine keeps, or is lost**, whatever arrives in
whatever chunks. -/
theorem recvRun_reported (chunks : List (List Byte)) :
    ∀ m ∈ (recvRun P size chunks).received, Reported Out F L m := by
  suffices h : Kept size M Rel Out I F L (recvRun P size chunks) from h.reported
  induction chunks using List.reverseRecOn with
  | nil => exact ⟨by simp [recvRun], by simp [recvRun]⟩
  | append_singleton chunks chunk ih =>
    rw [recvRun_concat]
    exact msgRecv_kept hK sim jump hpos _ ih

end Steps

end Keeps

end CacheProxy
