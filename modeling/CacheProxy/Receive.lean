/-
**Receiving messages: buffers, parser calls and leftovers.**

`msg_recv` reads a socket into the last mbuf of the message being received and calls the
protocol's parser after every read.  The parser reports that a message is complete
(`MSG_PARSE_OK`: what is behind it is split off and becomes the next message), that it needs more
bytes (`MSG_PARSE_AGAIN`), that a token must be moved to a new mbuf because the buffer is full
(`MSG_PARSE_REPAIR`), or an error.

The model is generic in the parser and in the registers a parser keeps in the message.  A socket
is a list of bytes that have arrived; a read takes as many of them as fit in the buffer, and a
read from an empty socket is `EAGAIN`.

Main definitions:

* `Parser`, `RecvMsg`, `Receiver` — a parser, a message being received, a receiving connection;
* `msgParsed`, `msgRepair`, `msgParse`, `msgRecvChain`, `msgRecv` — the functions of the source;
* `recvRun` — a whole run over the chunks in which a stream arrives.

Main results:

* `recvRun_conserves` — **no byte is lost**: what was handed on, what was dropped and what is
  pending add up to what was read;
* `recvRun_dropped_of_wrap` — a read that wraps the recorded length to zero drops the message.
-/

import CacheProxy.Mbuf
import Mathlib.Data.List.Induction

namespace CacheProxy

/-! ### Parsers and messages -/

/-- `msg_parse_result_t`. -/
inductive ParseResult where
  | ok
  | error
  | repair
  | again
  deriving DecidableEq, Repr

/-- **A protocol's parser**: the registers of a new message, and what a call does with the last
mbuf, the marker `msg->pos` (an offset into that mbuf) and the registers. -/
structure Parser (ρ : Type) where
  init : ρ
  parse : (size : ℕ) → Mbuf → ℕ → ρ → ParseResult × ℕ × ρ

/-- A message as the receive path sees it. -/
structure RecvMsg (ρ : Type) extends MsgBuf where
  pos : ℕ := 0
  regs : ρ
  deriving DecidableEq, Repr

/-- The state of the connection with respect to receiving. -/
inductive RecvStatus where
  | ok
  /-- the parser reported an error; the connection will be closed -/
  | error
  /-- the loop of `msg_recv_chain` did not end within its fuel -/
  | hang
  deriving DecidableEq, Repr

/-- **A receiving connection.**  `received` are the messages handed to `recv_done` after
`MSG_PARSE_OK`; `dropped` collects the bytes of messages handed to it because they were taken for
empty, and `reads` what each read made of the received length before it is cut to 32 bits. -/
structure Receiver (ρ : Type) where
  rmsg : Option (RecvMsg ρ) := none
  nextMbuf : ℕ := 0
  received : List (RecvMsg ρ) := []
  dropped : List Byte := []
  reads : List ℕ := []
  status : RecvStatus := .ok
  deriving DecidableEq, Repr

variable {ρ : Type}

/-- `a - b` of two `uint32_t`. -/
def sub32 (a b : ℕ) : ℕ := wrap32 (a + (2 ^ 32 - b % 2 ^ 32))

/-! ### The functions of the receive path -/

/-- `msg_parsed`: the message is complete; bytes behind it become the next message. -/
def msgParsed (P : Parser ρ) (c : Receiver ρ) (msg : RecvMsg ρ) : Receiver ρ :=
  match msg.mhdr.getLast? with
  | none => { c with status := .error }
  | some b =>
      if msg.pos = b.data.length then
        { c with rmsg := none, received := c.received ++ [msg] }
      else
        let (mbuf, nbuf) := mbufSplit b msg.pos c.nextMbuf
        let nmsg : RecvMsg ρ :=
          { mhdr := [nbuf], mlen := wrap32 (mbufLength nbuf), pos := 0, regs := P.init }
        let msg' : RecvMsg ρ :=
          { msg with mhdr := msg.mhdr.dropLast ++ [mbuf], mlen := sub32 msg.mlen nmsg.mlen }
        { c with
          rmsg := some nmsg, nextMbuf := c.nextMbuf + 1, received := c.received ++ [msg'] }

/-- `msg_repair`: the open token moves to a new mbuf. -/
def msgRepair (c : Receiver ρ) (msg : RecvMsg ρ) : Receiver ρ :=
  match msg.mhdr.getLast? with
  | none => { c with status := .error }
  | some b =>
      let (mbuf, nbuf) := mbufSplit b msg.pos c.nextMbuf
      { c with
        rmsg := some { msg with mhdr := msg.mhdr.dropLast ++ [mbuf, nbuf], pos := 0 }
        nextMbuf := c.nextMbuf + 1 }

/-- `msg_parse`; the flag says whether the loop of `msg_recv_chain` goes on with another message
(`recv_next` gives one that is not `msg`). -/
def msgParse (P : Parser ρ) (size : ℕ) (c : Receiver ρ) (msg : RecvMsg ρ) : Receiver ρ × Bool :=
  if msgEmpty msg.toMsgBuf then
    ({ c with rmsg := none, dropped := c.dropped ++ msg.bytes }, false)
  else
    match msg.mhdr.getLast? with
    | none => ({ c with status := .error }, false)
    | some b =>
        match P.parse size b msg.pos msg.regs with
        | (.ok, pos, regs) =>
            let c' := msgParsed P c { msg with pos := pos, regs := regs }
            (c', c'.rmsg.isSome)
        | (.repair, pos, regs) => (msgRepair c { msg with pos := pos, regs := regs }, false)
        | (.again, pos, regs) =>
            ({ c with rmsg := some { msg with pos := pos, regs := regs } }, false)
        | (.error, pos, regs) =>
            ({ c with rmsg := some { msg with pos := pos, regs := regs }, status := .error }, false)

/-- The loop at the end of `msg_recv_chain`. -/
def parseLoop (P : Parser ρ) (size : ℕ) : ℕ → Receiver ρ → RecvMsg ρ → Receiver ρ
  | 0, c, _ => { c with status := .hang }
  | fuel + 1, c, msg =>
      match msgParse P size c msg with
      | (c', false) => c'
      | (c', true) =>
          match c'.rmsg with
          | none => c'
          | some nmsg => parseLoop P size fuel c' nmsg

/-- `recv_next` with `alloc`: the message being received, or a new one. -/
def recvNext (P : Parser ρ) (c : Receiver ρ) : RecvMsg ρ := c.rmsg.getD { regs := P.init }

/-- Whether `msg_recv_chain` starts a new mbuf: there is none yet, or the last one is full. -/
def needsMbuf (size : ℕ) (msg : RecvMsg ρ) : Bool :=
  match msg.mhdr.getLast? with
  | none => true
  | some b => mbufFull size b

/-- The message with the mbuf that the next read fills. -/
def withMbuf (size : ℕ) (c : Receiver ρ) (msg : RecvMsg ρ) : Receiver ρ × RecvMsg ρ :=
  if needsMbuf size msg then
    ({ c with nextMbuf := c.nextMbuf + 1 },
      { msg with mhdr := msg.mhdr ++ [mbufGet c.nextMbuf], pos := 0 })
  else (c, msg)

/-- The room a read has: `mbuf_size` of the last mbuf. -/
def recvRoom (size : ℕ) (msg : RecvMsg ρ) : ℕ :=
  match msg.mhdr.getLast? with
  | none => 0
  | some b => mbufSize size b

/-- The message after a read of `bs`. -/
def recvBytes (msg : RecvMsg ρ) (bs : List Byte) : RecvMsg ρ :=
  { msg with mhdr := copyLast msg.mhdr bs, mlen := wrap32 (msg.mlen + bs.length) }

/-- `msg_recv_chain` when the bytes `avail` are at the socket: one read and the parser calls it
leads to.  Also returns what remains at the socket and `recv_ready`. -/
def msgRecvChain (P : Parser ρ) (size : ℕ) (c : Receiver ρ) (avail : List Byte) :
    Receiver ρ × List Byte × Bool :=
  let (c, msg) := withMbuf size c (recvNext P c)
  if avail = [] then ({ c with rmsg := some msg }, [], false)
  else
    let room := recvRoom size msg
    let bs := avail.take room
    let msg' := recvBytes msg bs
    let c' := { c with reads := c.reads ++ [msg.mlen + bs.length] }
    (parseLoop P size (msg'.bytes.length + 1) c' msg', avail.drop room,
      decide (room ≤ avail.length))

/-- `msg_recv`: reads while the socket may have more. -/
def msgRecv (P : Parser ρ) (size : ℕ) : ℕ → Receiver ρ → List Byte → Receiver ρ
  | 0, c, _ => c
  | fuel + 1, c, avail =>
      match c.status with
      | .ok =>
          match msgRecvChain P size c avail with
          | (c', rest, true) => msgRecv P size fuel c' rest
          | (c', _, false) => c'
      | _ => c

/-- **A whole run**: the stream arrives in chunks, each of which wakes up `msg_recv`. -/
def recvRun (P : Parser ρ) (size : ℕ) (chunks : List (List Byte)) : Receiver ρ :=
  chunks.foldl (fun c chunk => msgRecv P size (chunk.length + 1) c chunk) {}

/-! ### What each function does to a message with buffers -/

section Equations

variable {P : Parser ρ} {size : ℕ} {c : Receiver ρ} {msg : RecvMsg ρ} {pre : List Mbuf} {b : Mbuf}

theorem msgParsed_of_end (c : Receiver ρ) (msg : RecvMsg ρ) (hm : msg.mhdr = pre ++ [b])
    (hpos : msg.pos = b.data.length) :
    msgParsed P c msg = { c with rmsg := none, received := c.received ++ [msg] } := by
  simp only [msgParsed, hm, List.getLast?_concat, hpos, if_true]

theorem msgParsed_of_leftover (c : Receiver ρ) (msg : RecvMsg ρ) (hm : msg.mhdr = pre ++ [b])
    (hpos : msg.pos ≠ b.data.length) :
    msgParsed P c msg =
      { c with
        rmsg := some
          { mhdr := [mbufCopy (mbufGet c.nextMbuf) (b.data.drop msg.pos)]
            mlen := wrap32 (b.data.drop msg.pos).length
            regs := P.init }
        nextMbuf := c.nextMbuf + 1
        received := c.received ++
          [{ msg with
            mhdr := pre ++ [b.truncate msg.pos]
            mlen := sub32 msg.mlen (wrap32 (b.data.drop msg.pos).length) }] } := by
  simp only [msgParsed, hm, List.getLast?_concat, if_neg hpos, List.dropLast_concat, mbufSplit,
    mbufLength, mbufCopy_body, mbufGet_body, List.nil_append]

theorem msgRepair_eq (c : Receiver ρ) (msg : RecvMsg ρ) (hm : msg.mhdr = pre ++ [b]) :
    msgRepair c msg =
      { c with
        rmsg := some
          { msg with
            mhdr := pre ++ [b.truncate msg.pos,
              mbufCopy (mbufGet c.nextMbuf) (b.data.drop msg.pos)]
            pos := 0 }
        nextMbuf := c.nextMbuf + 1 } := by
  simp only [msgRepair, hm, List.getLast?_concat, List.dropLast_concat, mbufSplit]

theorem msgParse_of_empty (h : msgEmpty msg.toMsgBuf = true) :
    msgParse P size c msg =
      ({ c with rmsg := none, dropped := c.dropped ++ msg.bytes }, false) := by
  simp only [msgParse, h, if_true]

theorem msgParse_of_nonempty (h : msgEmpty msg.toMsgBuf = false) (hm : msg.mhdr = pre ++ [b]) :
    msgParse P size c msg =
      match P.parse size b msg.pos msg.regs with
      | (.ok, pos, regs) =>
          (msgParsed P c { msg with pos := pos, regs := regs },
            (msgParsed P c { msg with pos := pos, regs := regs }).rmsg.isSome)
      | (.repair, pos, regs) => (msgRepair c { msg with pos := pos, regs := regs }, false)
      | (.again, pos, regs) =>
          ({ c with rmsg := some { msg with pos := pos, regs := regs } }, false)
      | (.error, pos, regs) =>
          ({ c with rmsg := some { msg with pos := pos, regs := regs }, status := .error },
            false) := by
  simp only [msgParse, h, Bool.false_eq_true, if_false, hm, List.getLast?_concat]

end Equations

/-! ### Reads are recorded -/

@[simp] theorem msgParsed_reads (P : Parser ρ) (c : Receiver ρ) (msg : RecvMsg ρ) :
    (msgParsed P c msg).reads = c.reads := by
  unfold msgParsed
  split
  · rfl
  · split <;> rfl

@[simp] theorem msgRepair_reads (c : Receiver ρ) (msg : RecvMsg ρ) :
    (msgRepair c msg).reads = c.reads := by
  unfold msgRepair
  split <;> rfl

@[simp] theorem msgParse_reads (P : Parser ρ) (size : ℕ) (c : Receiver ρ) (msg : RecvMsg ρ) :
    (msgParse P size c msg).1.reads = c.reads := by
  unfold msgParse
  split
  · rfl
  · split
    · rfl
    · split <;> simp

@[simp] theorem parseLoop_reads (P : Parser ρ) (size fuel : ℕ) (c : Receiver ρ) (msg : RecvMsg ρ) :
    (parseLoop P size fuel c msg).reads = c.reads := by
  induction fuel generalizing c msg with
  | zero => rfl
  | succ fuel ih =>
      rw [parseLoop, ← msgParse_reads P size c msg]
      split
      · next hres => rw [hres]
      · next hres =>
          rw [hres]
          split
          · rfl
          · exact ih _ _

theorem withMbuf_reads (size : ℕ) (c : Receiver ρ) (msg : RecvMsg ρ) :
    (withMbuf size c msg).1.reads = c.reads := by
  unfold withMbuf
  split <;> rfl

theorem msgRecvChain_reads (P : Parser ρ) (size : ℕ) (c : Receiver ρ) (avail : List Byte) :
    c.reads <+: (msgRecvChain P size c avail).1.reads := by
  rw [← withMbuf_reads size c (recvNext P c)]
  unfold msgRecvChain
  dsimp only
  split
  · exact List.prefix_rfl
  · rw [parseLoop_reads]
    exact List.prefix_append _ _

theorem msgRecv_reads (P : Parser ρ) (size fuel : ℕ) (c : Receiver ρ) (avail : List Byte) :
    c.reads <+: (msgRecv P size fuel c avail).reads := by
  induction fuel generalizing c avail with
  | zero => exact List.prefix_rfl
  | succ fuel ih =>
      rw [msgRecv]
      split
      · have h := msgRecvChain_reads P size c avail
        split
        · next hres =>
            rw [hres] at h
            exact h.trans (ih _ _)
        · next hres =>
            rw [hres] at h
            exact h
      · exact List.prefix_rfl

/-- A chunk that fits in the mbuf is read at once. -/
theorem msgRecv_reads_eq {P : Parser ρ} {size : ℕ} {c : Receiver ρ} {bs : List Byte}
    (hstatus : c.status = .ok) (hne : bs ≠ [])
    (hroom : bs.length ≤ recvRoom size (withMbuf size c (recvNext P c)).2) :
    (msgRecv P size (bs.length + 1) c bs).reads =
      c.reads ++ [(withMbuf size c (recvNext P c)).2.mlen + bs.length] := by
  have hread : (msgRecvChain P size c bs).1.reads =
      c.reads ++ [(withMbuf size c (recvNext P c)).2.mlen + bs.length] := by
    rw [msgRecvChain]
    simp only [if_neg hne, parseLoop_reads, withMbuf_reads, List.take_of_length_le hroom]
  have hrest : (msgRecvChain P size c bs).2.1 = [] := by
    rw [msgRecvChain]
    simp only [if_neg hne, List.drop_of_length_le hroom]
  -- a second read, if there is one, finds nothing
  have hempty : ∀ d : Receiver ρ, ∀ fuel, (msgRecv P size fuel d []).reads = d.reads := by
    intro d fuel
    cases fuel with
    | zero => rfl
    | succ =>
        rw [msgRecv]
        cases d.status with
        | ok => simp [msgRecvChain, withMbuf_reads]
        | error | hang => rfl
  rw [msgRecv, hstatus]
  cases hchain : msgRecvChain P size c bs with
  | mk c' p =>
      obtain ⟨rest, ready⟩ := p
      rw [hchain] at hread hrest
      cases hrest
      cases ready with
      | true => exact (hempty c' _).trans hread
      | false => exact hread

theorem recvRun_append (P : Parser ρ) (size : ℕ) (xs ys : List (List Byte)) :
    recvRun P size (xs ++ ys) =
      ys.foldl (fun c chunk => msgRecv P size (chunk.length + 1) c chunk) (recvRun P size xs) :=
  List.foldl_append

theorem recvRun_concat (P : Parser ρ) (size : ℕ) (xs : List (List Byte)) (y : List Byte) :
    recvRun P size (xs ++ [y]) = msgRecv P size (y.length + 1) (recvRun P size xs) y := by
  simp [recvRun_append]

/-- The reads of the first chunks are among those of the whole run. -/
theorem recvRun_reads_append (P : Parser ρ) (size : ℕ) (xs ys : List (List Byte)) :
    (recvRun P size xs).reads <+: (recvRun P size (xs ++ ys)).reads := by
  induction ys using List.reverseRecOn with
  | nil =>
      simp only [List.append_nil, List.prefix_rfl]
  | append_singleton ys y ih =>
      rw [← List.append_assoc, recvRun_concat]
      exact ih.trans (msgRecv_reads P size _ _ y)

/-! ### No byte is lost -/

/-- The number of bytes that left the receive path, handed on or dropped. -/
def Receiver.settled (c : Receiver ρ) : ℕ :=
  (c.received.map fun m => m.bytes.length).sum + c.dropped.length

/-- The bytes of the message being received. -/
def Receiver.pending (c : Receiver ρ) : List Byte := (c.rmsg.map fun m => m.bytes).getD []

/-- Buffers that are being filled: nothing of them is consumed and they hold what fits. -/
def Filling (size : ℕ) (mhdr : List Mbuf) : Prop :=
  ∀ b ∈ mhdr, b.gone = [] ∧ b.body.length ≤ size

theorem filling_append {size : ℕ} {xs ys : List Mbuf} :
    Filling size (xs ++ ys) ↔ Filling size xs ∧ Filling size ys :=
  List.forall_mem_append

@[simp] theorem filling_singleton {size : ℕ} {b : Mbuf} :
    Filling size [b] ↔ b.gone = [] ∧ b.body.length ≤ size := by
  simp [Filling]

/-- A chain with a last buffer, taken apart. -/
theorem getLast?_eq_some {mhdr : List Mbuf} {b : Mbuf} (h : mhdr.getLast? = some b) :
    mhdr = mhdr.dropLast ++ [b] := by
  obtain ⟨pre, rfl⟩ := List.getLast?_eq_some_iff.1 h
  simp

/-- `AllOf size c n`: the connection accounts for `n` bytes, and the message being received is in
buffers that are being filled. -/
structure AllOf (size : ℕ) (c : Receiver ρ) (n : ℕ) : Prop where
  filling : ∀ m, c.rmsg = some m → Filling size m.mhdr ∧ m.mhdr ≠ []
  account : c.settled + c.pending.length = n

theorem split_length {b : Mbuf} (hb : b.gone = []) (pos : ℕ) :
    (b.truncate pos).body.length + (b.data.drop pos).length = b.body.length := by
  rw [← List.length_append, Mbuf.truncate_body_append (by simp [hb])]

theorem msgParsed_allOf {P : Parser ρ} {size : ℕ} {c : Receiver ρ} {msg : RecvMsg ρ}
    (hu : Filling size msg.mhdr) (hne : msg.mhdr ≠ []) :
    AllOf size (msgParsed P c msg) (c.settled + msg.bytes.length) := by
  obtain ⟨pre, b, hm⟩ : ∃ pre b, msg.mhdr = pre ++ [b] :=
    ⟨_, _, (List.dropLast_append_getLast hne).symm⟩
  obtain ⟨hb, hfit⟩ := hu b (by simp [hm])
  by_cases hpos : msg.pos = b.data.length
  · rw [msgParsed_of_end c msg hm hpos]
    refine ⟨by simp, ?_⟩
    simp only [Receiver.settled, Receiver.pending, List.map_append, List.map_cons, List.map_nil,
      List.sum_append, List.sum_singleton, Option.map_none, Option.getD_none, List.length_nil]
    omega
  · rw [msgParsed_of_leftover c msg hm hpos]
    have hcut := split_length hb msg.pos
    constructor
    · rintro m ⟨rfl⟩
      refine ⟨filling_singleton.2 ⟨rfl, ?_⟩, by simp⟩
      simp only [mbufCopy_body, mbufGet_body, List.nil_append]
      omega
    · simp only [Receiver.settled, Receiver.pending, MsgBuf.bytes, List.map_append, List.map_cons,
        List.map_nil, List.sum_append, List.sum_singleton, Option.map_some, Option.getD_some,
        content_append, content_cons, content_nil, List.append_nil, mbufCopy_body, mbufGet_body,
        List.nil_append, List.length_append, hm]
      omega

theorem msgRepair_allOf {size : ℕ} {c : Receiver ρ} {msg : RecvMsg ρ}
    (hu : Filling size msg.mhdr) (hne : msg.mhdr ≠ []) :
    AllOf size (msgRepair c msg) (c.settled + msg.bytes.length) := by
  obtain ⟨pre, b, hm⟩ : ∃ pre b, msg.mhdr = pre ++ [b] :=
    ⟨_, _, (List.dropLast_append_getLast hne).symm⟩
  rw [hm, filling_append, filling_singleton] at hu
  obtain ⟨hpre, hb, hfit⟩ := hu
  have hcut := split_length hb msg.pos
  rw [msgRepair_eq c msg hm]
  constructor
  · rintro m ⟨rfl⟩
    refine ⟨filling_append.2 ⟨hpre, ?_⟩, by simp⟩
    intro x hx
    rcases List.mem_pair.1 hx with rfl | rfl
    · exact ⟨hb, by omega⟩
    · refine ⟨rfl, ?_⟩
      simp only [mbufCopy_body, mbufGet_body, List.nil_append]
      omega
  · simp only [Receiver.settled, Receiver.pending, MsgBuf.bytes, Option.map_some, Option.getD_some,
      content_append, content_cons, content_nil, List.append_nil, mbufCopy_body, mbufGet_body,
      List.nil_append, List.length_append, hm]
    omega

@[simp] theorem msgParsed_dropped (P : Parser ρ) (c : Receiver ρ) (msg : RecvMsg ρ) :
    (msgParsed P c msg).dropped = c.dropped := by
  unfold msgParsed
  split
  · rfl
  · split <;> rfl

@[simp] theorem msgRepair_dropped (c : Receiver ρ) (msg : RecvMsg ρ) :
    (msgRepair c msg).dropped = c.dropped := by
  unfold msgRepair
  split <;> rfl

/-- One parser call keeps the account; it drops bytes only of a message taken for empty. -/
theorem msgParse_allOf (P : Parser ρ) {size : ℕ} (c : Receiver ρ) {msg : RecvMsg ρ}
    (hu : Filling size msg.mhdr) (hne : msg.mhdr ≠ []) :
    AllOf size (msgParse P size c msg).1 (c.settled + msg.bytes.length) ∧
      (msgParse P size c msg).1.dropped =
        if msgEmpty msg.toMsgBuf then c.dropped ++ msg.bytes else c.dropped := by
  obtain ⟨pre, b, hm⟩ : ∃ pre b, msg.mhdr = pre ++ [b] :=
    ⟨_, _, (List.dropLast_append_getLast hne).symm⟩
  cases hemp : msgEmpty msg.toMsgBuf with
  | true =>
      rw [msgParse_of_empty hemp]
      refine ⟨⟨by simp, ?_⟩, by simp⟩
      simp only [Receiver.settled, Receiver.pending, List.length_append, Option.map_none,
        Option.getD_none, List.length_nil]
      omega
  | false =>
      have hacc : ∀ (m : RecvMsg ρ) (st : RecvStatus), m.mhdr = msg.mhdr →
          AllOf size { c with rmsg := some m, status := st } (c.settled + msg.bytes.length) := by
        intro m st hmm
        refine ⟨?_, by simp [Receiver.settled, Receiver.pending, MsgBuf.bytes, hmm]⟩
        rintro m' ⟨rfl⟩
        rw [hmm]
        exact ⟨hu, hne⟩
      rw [msgParse_of_nonempty hemp hm]
      split
      · exact ⟨msgParsed_allOf hu hne, by simp⟩
      · exact ⟨msgRepair_allOf hu hne, by simp⟩
      · exact ⟨hacc _ c.status rfl, by simp⟩
      · exact ⟨hacc _ .error rfl, by simp⟩

theorem parseLoop_allOf {P : Parser ρ} {size fuel : ℕ} {c : Receiver ρ} {msg : RecvMsg ρ}
    (hu : Filling size msg.mhdr) (hne : msg.mhdr ≠ [])
    (hok : (parseLoop P size fuel c msg).status = .ok) :
    AllOf size (parseLoop P size fuel c msg) (c.settled + msg.bytes.length) ∧
      (if msgEmpty msg.toMsgBuf then c.dropped ++ msg.bytes else c.dropped) <+:
        (parseLoop P size fuel c msg).dropped := by
  induction fuel generalizing c msg with
  | zero => simp [parseLoop] at hok
  | succ fuel ih =>
      obtain ⟨hall, hdrop⟩ := msgParse_allOf P c hu hne
      have hdone : AllOf size (msgParse P size c msg).1 (c.settled + msg.bytes.length) ∧
          (if msgEmpty msg.toMsgBuf then c.dropped ++ msg.bytes else c.dropped) <+:
            (msgParse P size c msg).1.dropped := ⟨hall, hdrop ▸ List.prefix_rfl⟩
      rw [parseLoop] at hok ⊢
      generalize msgParse P size c msg = res at hall hdrop hdone hok ⊢
      obtain ⟨c', go⟩ := res
      cases go with
      | false => exact hdone
      | true =>
          cases hr : c'.rmsg with
          | none => simpa only [hr] using hdone
          | some nmsg =>
              simp only [hr] at hok ⊢
              obtain ⟨hun, hnen⟩ := hall.filling nmsg hr
              obtain ⟨hall', hpre⟩ := ih hun hnen hok
              have hacc : c'.settled + nmsg.bytes.length = c.settled + msg.bytes.length := by
                have := hall.account
                simpa [Receiver.pending, hr] using this
              rw [hacc] at hall'
              refine ⟨hall', ?_⟩
              rw [← hdrop]
              refine List.IsPrefix.trans ?_ hpre
              split
              · exact List.prefix_append _ _
              · exact List.prefix_rfl

/-- What a run keeps track of: all bytes are accounted for, and if a read has wrapped the recorded
length of a message to zero, then bytes have been dropped. -/
structure Tracks (size : ℕ) (c : Receiver ρ) (n : ℕ) : Prop extends AllOf size c n where
  wrapped : (∃ x ∈ c.reads, wrap32 x = 0) → c.dropped ≠ []

/-- The message a read fills has a last buffer with room. -/
theorem withMbuf_spec {P : Parser ρ} {size : ℕ} {c : Receiver ρ} {n : ℕ} (hsize : 0 < size)
    (h : AllOf size c n) :
    ∃ pre b, (withMbuf size c (recvNext P c)).2.mhdr = pre ++ [b] ∧
      Filling size (pre ++ [b]) ∧ b.body.length < size ∧
      content (pre ++ [b]) = c.pending ∧
      ((withMbuf size c (recvNext P c)).1 = c ∨
        (withMbuf size c (recvNext P c)).1 = { c with nextMbuf := c.nextMbuf + 1 }) := by
  have hmsg : Filling size (recvNext P c).mhdr ∧ content (recvNext P c).mhdr = c.pending := by
    cases hr : c.rmsg with
    | none => simp [recvNext, hr, Receiver.pending, Filling]
    | some m =>
        have := (h.filling m hr).1
        simpa [recvNext, hr, Receiver.pending, MsgBuf.bytes] using this
  unfold withMbuf
  cases hneed : needsMbuf size (recvNext P c) with
  | true =>
      refine ⟨_, _, rfl, ?_, ?_, ?_, Or.inr rfl⟩
      · exact filling_append.2 ⟨hmsg.1, filling_singleton.2 ⟨rfl, by simp⟩⟩
      · simpa using hsize
      · simpa using hmsg.2
  | false =>
      unfold needsMbuf at hneed
      split at hneed
      · cases hneed
      · next b hb =>
          have hm := getLast?_eq_some hb
          have hfill : Filling size ((recvNext P c).mhdr.dropLast ++ [b]) := by
            rw [← hm]
            exact hmsg.1
          refine ⟨_, b, hm, hfill, ?_, ?_, Or.inl rfl⟩
          · obtain ⟨hgone, hfit⟩ := (filling_singleton.1 (filling_append.1 hfill).2)
            have hfull : b.body.length ≠ size := by
              simpa [mbufFull, Mbuf.data, hgone] using hneed
            omega
          · rw [← hm]
            exact hmsg.2

theorem recvRoom_eq {size : ℕ} {msg : RecvMsg ρ} {pre : List Mbuf} {b : Mbuf}
    (hm : msg.mhdr = pre ++ [b]) (hb : b.gone = []) : recvRoom size msg = size - b.body.length := by
  simp [recvRoom, hm, mbufSize, Mbuf.data, hb]

theorem recvBytes_mhdr {msg : RecvMsg ρ} {pre : List Mbuf} {b : Mbuf} (hm : msg.mhdr = pre ++ [b])
    (bs : List Byte) : (recvBytes msg bs).mhdr = pre ++ [mbufCopy b bs] := by
  simp [recvBytes, hm, copyLast]

/-- One read: the bytes it takes are accounted for, and the socket is empty or has fewer bytes. -/
theorem msgRecvChain_tracks (P : Parser ρ) {size : ℕ} {c : Receiver ρ} {n : ℕ}
    (avail : List Byte) (hsize : 0 < size) (h : Tracks size c n) :
    ∃ k, (msgRecvChain P size c avail).2.1 = avail.drop k ∧ k ≤ avail.length ∧
      ((msgRecvChain P size c avail).2.2 = true → 0 < k) ∧
      ((msgRecvChain P size c avail).2.2 = false → k = avail.length) ∧
      ((msgRecvChain P size c avail).1.status = .ok →
        Tracks size (msgRecvChain P size c avail).1 (n + k)) := by
  obtain ⟨pre, b, hm, hfill, hroom, hpend, hc⟩ := withMbuf_spec (P := P) hsize h.toAllOf
  obtain ⟨hpre, hb⟩ := filling_append.1 hfill
  obtain ⟨hgone, hfit⟩ := filling_singleton.1 hb
  generalize hw : withMbuf size c (recvNext P c) = w at hm hc
  obtain ⟨c₁, msg⟩ := w
  have hsame : c₁.settled = c.settled ∧ c₁.dropped = c.dropped ∧ c₁.reads = c.reads := by
    rcases hc with hc | hc <;> rw [show c₁ = _ from hc] <;> exact ⟨rfl, rfl, rfl⟩
  have hacc := h.account
  simp only at hm
  unfold msgRecvChain
  simp only [hw]
  by_cases hav : avail = []
  · refine ⟨0, by simp [hav], Nat.zero_le _, by simp [hav], by simp [hav], fun _ => ?_⟩
    simp only [hav, if_true, Nat.add_zero]
    refine ⟨⟨?_, ?_⟩, ?_⟩
    · rintro m ⟨rfl⟩
      rw [hm]
      exact ⟨hfill, by simp⟩
    · change c₁.settled + msg.bytes.length = n
      rw [hsame.1, show msg.bytes = c.pending by rw [MsgBuf.bytes, hm, hpend], hacc]
    · change (∃ x ∈ c₁.reads, wrap32 x = 0) → c₁.dropped ≠ []
      rw [hsame.2.1, hsame.2.2]
      exact h.wrapped
  · simp only [if_neg hav]
    have hr : recvRoom size msg = size - b.body.length := recvRoom_eq hm hgone
    have hpos : 0 < recvRoom size msg := by omega
    set room := recvRoom size msg
    have hlen : (avail.take room).length = min room avail.length := List.length_take
    have havpos : 0 < avail.length := List.length_pos_iff.2 hav
    refine ⟨min room avail.length, ?_, Nat.min_le_right _ _, fun _ => by omega, ?_, fun hok => ?_⟩
    · rcases Nat.le_total room avail.length with hle | hle
      · rw [Nat.min_eq_left hle]
      · rw [Nat.min_eq_right hle, List.drop_of_length_le hle, List.drop_length]
    · intro hnot
      have : ¬ room ≤ avail.length := by simpa using hnot
      omega
    · have hm' : (recvBytes msg (avail.take room)).mhdr = pre ++ [mbufCopy b (avail.take room)] :=
        recvBytes_mhdr hm _
      have hbytes : (recvBytes msg (avail.take room)).bytes = c.pending ++ avail.take room := by
        rw [MsgBuf.bytes, hm', ← hpend]
        simp
      have hfill' : Filling size (recvBytes msg (avail.take room)).mhdr := by
        rw [hm', filling_append, filling_singleton]
        refine ⟨hpre, hgone, ?_⟩
        rw [mbufCopy_body, List.length_append]
        omega
      obtain ⟨hall, hdrop⟩ := parseLoop_allOf hfill' (by rw [hm']; simp) hok
      have hn : c₁.settled + (recvBytes msg (avail.take room)).bytes.length
          = n + min room avail.length := by
        rw [hsame.1, hbytes, List.length_append, hlen]
        omega
      refine ⟨?_, ?_⟩
      · rw [← hn]
        exact hall
      · rw [parseLoop_reads]
        rintro ⟨x, hx, hzero⟩
        have hx' : x ∈ c.reads ∨ x = msg.mlen + (avail.take room).length := by
          simpa [hsame.2.2] using hx
        have hnil : c.dropped ≠ [] ∨
            msgEmpty (recvBytes msg (avail.take room)).toMsgBuf = true := by
          rcases hx' with hx' | rfl
          · exact Or.inl (h.wrapped ⟨x, hx', hzero⟩)
          · exact Or.inr (by simpa [msgEmpty, recvBytes] using hzero)
        intro hnone
        rw [hnone] at hdrop
        have hnone' := List.prefix_nil.1 hdrop
        rcases hnil with hnil | hnil
        · split at hnone'
          · exact hnil (hsame.2.1 ▸ (List.append_eq_nil_iff.1 hnone').1)
          · exact hnil (hsame.2.1 ▸ hnone')
        · rw [if_pos hnil, hbytes] at hnone'
          have h0 := congrArg List.length (List.append_eq_nil_iff.1 hnone').2
          rw [List.length_append, hlen, List.length_nil] at h0
          omega

theorem msgRecv_tracks {P : Parser ρ} {size fuel : ℕ} {c : Receiver ρ} {n : ℕ}
    {avail : List Byte} (hsize : 0 < size) (h : c.status = .ok → Tracks size c n)
    (hfuel : avail.length < fuel) (hok : (msgRecv P size fuel c avail).status = .ok) :
    Tracks size (msgRecv P size fuel c avail) (n + avail.length) := by
  induction fuel generalizing c n avail with
  | zero => omega
  | succ fuel ih =>
      rw [msgRecv] at hok ⊢
      cases hst : c.status with
      | ok =>
          simp only [hst] at hok ⊢
          obtain ⟨k, hrest, hk, hready, hlast, htrack⟩ :=
            msgRecvChain_tracks P avail hsize (h hst)
          generalize msgRecvChain P size c avail = res at hrest hready hlast htrack hok ⊢
          obtain ⟨c', rest, ready⟩ := res
          simp only at hrest hready hlast htrack hok ⊢
          cases ready with
          | true =>
              have hk' := hready rfl
              have hlen : rest.length = avail.length - k := by rw [hrest, List.length_drop]
              have := ih (n := n + k) htrack (by omega) hok
              rwa [hlen, show n + k + (avail.length - k) = n + avail.length by omega] at this
          | false =>
              rw [← hlast rfl]
              exact htrack hok
      | error | hang => simp [hst] at hok

/-- A run in which no parser call failed accounts for all bytes of all chunks. -/
theorem recvRun_tracks {P : Parser ρ} {size : ℕ} {chunks : List (List Byte)} (hsize : 0 < size)
    (hok : (recvRun P size chunks).status = .ok) :
    Tracks size (recvRun P size chunks) chunks.flatten.length := by
  induction chunks using List.reverseRecOn with
  | nil => exact ⟨⟨by simp [recvRun], rfl⟩, by simp [recvRun]⟩
  | append_singleton chunks chunk ih =>
      rw [recvRun_concat] at hok ⊢
      have := msgRecv_tracks hsize ih (Nat.lt_succ_self _) hok
      simpa using this

/-- **No byte is lost**: what was handed on, dropped and is pending adds up to what arrived. -/
theorem recvRun_conserves {P : Parser ρ} {size : ℕ} {chunks : List (List Byte)} (hsize : 0 < size)
    (hok : (recvRun P size chunks).status = .ok) :
    (recvRun P size chunks).settled + (recvRun P size chunks).pending.length
      = chunks.flatten.length :=
  (recvRun_tracks hsize hok).account

/-- A read that wraps the recorded length of a message to zero loses bytes. -/
theorem recvRun_dropped_of_wrap {P : Parser ρ} {size : ℕ} {chunks : List (List Byte)}
    (hsize : 0 < size) (hok : (recvRun P size chunks).status = .ok)
    (hwrap : ∃ x ∈ (recvRun P size chunks).reads, wrap32 x = 0) :
    (recvRun P size chunks).dropped ≠ [] :=
  (recvRun_tracks hsize hok).wrapped hwrap

end CacheProxy
