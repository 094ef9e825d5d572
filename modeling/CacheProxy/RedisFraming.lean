/-
**Redis requests are found in the stream, however it is cut.**

The pieces are put together: `redis_parse_req` simulates a byte machine
(`CacheProxy/RedisRequestSim.lean`), the machine accepts the encoding of a request
(`CacheProxy/RedisEncoding.lean`), and the receive path delivers the frames of a parser that
simulates a machine (`CacheProxy/Framing.lean`), up to a `QUIT` (`CacheProxy/ClientReceive.lean`).
What is left is the received length, a `uint32_t`: a message of which exactly `2 ^ 32` bytes have
been read is taken for empty and thrown away.

Main definitions:

* `RecvMsg.view`, `Request.view` — what a parsed request shows, and what it should show;
* `ClientFramed` — after every chunk, the requests that are complete have been reported, and no
  other.

Main results:

* `framed_iff` — **a stream of requests is framed if and only if no read brings the received
  length of a message to a multiple of `2 ^ 32` and no request is behind a `QUIT`**;
* `not_framed_hugeSet` — a request of more than `2 ^ 32` bytes that is lost.
-/

import CacheProxy.ClientReceive
import CacheProxy.RedisEncoding

namespace CacheProxy

/-! ### What is reported -/

/-- A parsed request: its bytes, type, number of arguments, and the bytes between the two pointers
of each key. -/
structure ReqView where
  bytes : List Byte
  type : MsgType
  narg : ℕ
  keys : List (Option (List Byte))
  deriving DecidableEq, Repr

/-- What the message shows when the parser reports that it is complete. -/
def RecvMsg.view (m : RecvMsg ReqRegs) : ReqView :=
  { bytes := m.bytes, type := m.regs.type, narg := m.regs.narg
    keys := m.regs.keys.map (keyBytes m.mhdr) }

/-- What the message of a request has to show. -/
def Request.view {size : ℕ} (q : Request size) : ReqView :=
  { bytes := q.encode, type := q.type, narg := q.args.length + 1
    keys := (q.cls.keys q.args).map some }

/-- The connection has seen the requests `qs`, each reported once, and holds the bytes `u`. -/
structure Reported {size : ℕ} (c : Receiver ReqRegs) (qs : List (Request size)) (u : List Byte) :
    Prop where
  status : c.status = .ok
  views : c.received.map RecvMsg.view = qs.map Request.view
  pending : c.pending = u

/-- **The stream is framed** by a run of the connection: after any number of chunks no error was
reported, the requests whose last byte has arrived have been reported, in order, and what is held is
part of the next one. -/
def FramedBy (run : List (List Byte) → Receiver ReqRegs) {size : ℕ} (chunks : List (List Byte))
    (qs : List (Request size)) : Prop :=
  ∀ done later, chunks = done ++ later → ∃ ds rs u, qs = ds ++ rs ∧
    done.flatten = ds.flatMap Request.encode ++ u ∧
    (∀ r rs', rs = r :: rs' → u.length < r.encode.length) ∧ Reported (run done) ds u

/-- The stream is framed by the receive path alone. -/
def Framed (size : ℕ) (chunks : List (List Byte)) (qs : List (Request size)) : Prop :=
  FramedBy (recvRun redisParseReq size) chunks qs

/-- **The stream is framed by a client connection**, which reads nothing behind a `QUIT`. -/
def ClientFramed (size : ℕ) (chunks : List (List Byte)) (qs : List (Request size)) : Prop :=
  FramedBy (clientRun redisParseReq ReqRegs.quit size) chunks qs

/-! ### Frames of requests -/

/-- A request as a frame: its bytes and what the machine makes of them. -/
def Request.frame {size : ℕ} (q : Request size) : List Byte × ReqOut := (q.encode, q.out)

theorem stream_frames {size : ℕ} (qs : List (Request size)) :
    stream (qs.map Request.frame) = qs.flatMap Request.encode := by
  simp [stream, List.flatMap_map, Request.frame]

/-- A delivered message shows what its request has to show. -/
theorem Delivered.view_eq {size : ℕ} {m : RecvMsg ReqRegs} {q : Request size}
    (h : Delivered size (reqMachine size) ReqOutRel m q.frame) : m.view = q.view := by
  have hout : ReqOutRel m.mhdr q.out m.regs := h.out
  have hbytes : m.bytes = q.encode := h.bytes
  simp only [RecvMsg.view, Request.view, hbytes, hout.type, hout.narg, hout.keys]
  rfl

theorem views_eq {size : ℕ} {ms : List (RecvMsg ReqRegs)} {qs : List (Request size)}
    (h : List.Forall₂ (Delivered size (reqMachine size) ReqOutRel) ms (qs.map Request.frame)) :
    ms.map RecvMsg.view = qs.map Request.view := by
  induction qs generalizing ms with
  | nil =>
      cases h
      rfl
  | cons q qs ih =>
      obtain ⟨m, ms', hm, hms, rfl⟩ := List.forall₂_cons_right_iff.1 h
      rw [List.map_cons, List.map_cons, hm.view_eq, ih hms]

/-- The machine behind buffers accepts the encoding of the request. -/
def Request.Accepted {size : ℕ} (q : Request size) : Prop :=
  ((reqMachine size).buffered size).Accepts ((reqMachine size).Safe size)
    ((reqMachine size).init, 0)
    q.encode q.out

/-- A full buffer does no harm to a request other than `EVAL` and `EVALSHA`. -/
theorem Request.accepted {size : ℕ} (q : Request size) (hsize : 464 ≤ size)
    (heval : q.cls ≠ .argeval) : q.Accepted :=
  (q.accepts hsize heval).buffered (reqMachine_tokenizes size) (fun _ h => h)
    (reqMachine_wf_init size).1 (reqMachine_wf_init size).2 (Nat.zero_le _)

section

variable {size : ℕ} (hpos : 0 < size) (hmax : size < 2 ^ 32) {qs : List (Request size)}
  (hqs : ∀ q ∈ qs, q.Accepted) {chunks : List (List Byte)}

include hpos hmax hqs

/-- What is received of the requests, as long as no read wraps a length to zero. -/
theorem recvRun_requests {z : List Byte} (hstream : qs.flatMap Request.encode = chunks.flatten ++ z)
    (hwrap : ∀ x ∈ (recvRun redisParseReq size chunks).reads, wrap32 x ≠ 0) :
    Going size (reqMachine size) ReqRel ReqOutRel (qs.map Request.frame)
      (recvRun redisParseReq size chunks) chunks.flatten := by
  have hgs : ∀ g ∈ qs.map Request.frame,
      ((reqMachine size).buffered size).Accepts ((reqMachine size).Safe size)
        ((reqMachine size).init, 0) g.1 g.2 := by
    intro g hg
    obtain ⟨q, hq, rfl⟩ := List.mem_map.1 hg
    exact hqs q hq
  rcases recvRun_upTo (redisParseReq_sim size) hmax (.inl rfl) hpos hgs
    (by rw [stream_frames, List.append_nil, hstream]) hwrap with hgoing | ⟨hne, -⟩
  · exact hgoing
  · exact absurd rfl hne

/-- The message of each request of the stream. -/
theorem recvRun_delivered (hstream : chunks.flatten = qs.flatMap Request.encode)
    (hwrap : ∀ x ∈ (recvRun redisParseReq size chunks).reads, wrap32 x ≠ 0)
    {msg : RecvMsg ReqRegs} {q : Request size}
    (hmem : (msg, q) ∈ (recvRun redisParseReq size chunks).received.zip qs) :
    Delivered size (reqMachine size) ReqOutRel msg q.frame := by
  obtain ⟨ds, rs, u, hcut, -, -, hgood⟩ := recvRun_requests hpos hmax hqs
    (z := []) (by rw [hstream, List.append_nil]) hwrap
  have hzip : (msg, q.frame) ∈ (recvRun redisParseReq size chunks).received.zip ds := by
    have hframe : (msg, q.frame) ∈
        (recvRun redisParseReq size chunks).received.zip (qs.map Request.frame) := by
      rw [List.zip_map_right]
      exact List.mem_map.2 ⟨(msg, q), hmem, rfl⟩
    have hlen := hgood.delivered.length_eq
    rwa [hcut, ← List.append_nil (recvRun redisParseReq size chunks).received,
      List.zip_append hlen, List.zip_nil_left, List.append_nil] at hframe
  exact List.forall₂_zip hgood.delivered hzip

theorem framed_of_reads (hstream : chunks.flatten = qs.flatMap Request.encode)
    (hwrap : ∀ x ∈ (recvRun redisParseReq size chunks).reads, wrap32 x ≠ 0) :
    Framed size chunks qs := by
  rintro done later rfl
  have hpre := recvRun_reads_append redisParseReq size done later
  obtain ⟨ds, rs, u, hcut, hdone, hrs, hgood⟩ := recvRun_requests hpos hmax hqs
    (z := later.flatten) (by rw [← hstream, List.flatten_append])
    (fun x hx => hwrap x (hpre.subset hx))
  obtain ⟨ds, rs, rfl, rfl, rfl⟩ := List.map_eq_append_iff.1 hcut
  refine ⟨ds, rs, u, rfl, by rw [hdone, stream_frames], ?_, hgood.status, views_eq hgood.delivered,
    hgood.held.pending_eq⟩
  rintro r rs' rfl
  exact hrs r.frame (rs'.map Request.frame) rfl

end

/-- Bytes of a stream that is framed are not dropped, so that no length has wrapped to zero. -/
theorem reads_of_framed {size : ℕ} (hpos : 0 < size) {qs : List (Request size)}
    {chunks : List (List Byte)} (h : Framed size chunks qs) :
    ∀ x ∈ (recvRun redisParseReq size chunks).reads, wrap32 x ≠ 0 := by
  intro x hx hzero
  obtain ⟨ds, rs, u, -, hdone, -, hrep⟩ := h chunks [] (by simp)
  have hdropped := recvRun_dropped_of_wrap hpos hrep.status ⟨x, hx, hzero⟩
  have hcount := recvRun_conserves hpos hrep.status
  -- the reported requests and the bytes held are all the bytes that arrived
  have hsum : ((recvRun redisParseReq size chunks).received.map fun m => m.bytes.length).sum =
      (ds.flatMap Request.encode).length := by
    have hbytes := congrArg (List.map fun v : ReqView => v.bytes.length) hrep.views
    simp only [List.map_map] at hbytes
    rw [List.length_flatMap]
    exact congrArg List.sum hbytes
  rw [hrep.pending, Receiver.settled, hsum, hdone, List.length_append] at hcount
  exact hdropped (List.eq_nil_of_length_eq_zero (by omega))

section Client

variable {size : ℕ} {qs : List (Request size)} {chunks : List (List Byte)}

/-- The message of a `QUIT` shows it. -/
theorem Delivered.quit_iff {m : RecvMsg ReqRegs} {q : Request size}
    (h : Delivered size (reqMachine size) ReqOutRel m q.frame) :
    m.regs.quit = true ↔ q.type = .reqRedisQuit := by
  have hout : ReqOutRel m.mhdr q.out m.regs := h.out
  rw [hout.quit]
  change redisQuit q.type = true ↔ _
  cases q.type <;> simp [redisQuit]

/-- A stream of which all bytes have arrived has been reported as a whole. -/
theorem ClientFramed.whole (h : ClientFramed size chunks qs)
    (hstream : chunks.flatten = qs.flatMap Request.encode) :
    Reported (clientRun redisParseReq ReqRegs.quit size chunks) qs [] := by
  obtain ⟨ds, rs, u, rfl, hdone, hrs, hrep⟩ := h chunks [] (by simp)
  have hu : rs.flatMap Request.encode = u := by
    rw [hdone, List.flatMap_append] at hstream
    exact (List.append_cancel_left hstream).symm
  cases rs with
  | nil =>
      cases hu
      rwa [List.append_nil]
  | cons r rs =>
      have := hrs r rs rfl
      rw [← hu, List.flatMap_cons, List.length_append] at this
      omega

theorem ClientFramed.reads (hpos : 0 < size) (h : ClientFramed size chunks qs)
    (hstream : chunks.flatten = qs.flatMap Request.encode) :
    ∀ x ∈ (clientRun redisParseReq ReqRegs.quit size chunks).reads, wrap32 x ≠ 0 := by
  intro x hx hzero
  have hrep := h.whole hstream
  have htracks := clientRun_tracks redisParseReq ReqRegs.quit hpos chunks
  -- what was reported is all that has arrived, so that nothing was dropped
  have hsum : ((clientRun redisParseReq ReqRegs.quit size chunks).received.map
      fun m => m.bytes.length).sum = chunks.flatten.length := by
    have hbytes := congrArg (List.map fun v : ReqView => v.bytes.length) hrep.views
    simp only [List.map_map] at hbytes
    rw [hstream, List.length_flatMap]
    exact congrArg List.sum hbytes
  have hle : (clientRun redisParseReq ReqRegs.quit size chunks).settled ≤ chunks.flatten.length ∧
      (clientRun redisParseReq ReqRegs.quit size chunks).dropped ≠ [] := by
    cases heof : (clientRun redisParseReq ReqRegs.quit size chunks).eof ReqRegs.quit with
    | true => exact ⟨htracks.settled heof, htracks.wrapped heof ⟨x, hx, hzero⟩⟩
    | false =>
        have hgoing := htracks.going heof hrep.status
        have hacc := hgoing.account
        exact ⟨by omega, hgoing.wrapped ⟨x, hx, hzero⟩⟩
  rw [Receiver.settled, hsum] at hle
  exact hle.2 (List.eq_nil_of_length_eq_zero (by omega))

variable (hpos : 0 < size) (hmax : size < 2 ^ 32) (hqs : ∀ q ∈ qs, q.Accepted)

include hpos hmax hqs

/-- What a client connection receives of the requests. -/
theorem clientRun_requests {z : List Byte}
    (hstream : qs.flatMap Request.encode = chunks.flatten ++ z)
    (hwrap : ∀ x ∈ (clientRun redisParseReq ReqRegs.quit size chunks).reads, wrap32 x ≠ 0) :
    ClientGoing size (reqMachine size) ReqRegs.quit ReqRel ReqOutRel (qs.map Request.frame)
      (clientRun redisParseReq ReqRegs.quit size chunks) chunks.flatten := by
  refine clientRun_going (redisParseReq_sim size) hmax hpos ?_
    (by rw [stream_frames, hstream]) hwrap
  intro g hg
  obtain ⟨q, hq, rfl⟩ := List.mem_map.1 hg
  exact hqs q hq

theorem ClientFramed.quit_last (h : ClientFramed size chunks qs)
    (hstream : chunks.flatten = qs.flatMap Request.encode) :
    ∀ q ∈ qs.dropLast, q.type ≠ .reqRedisQuit := by
  intro q hq hquit
  have hrep := h.whole hstream
  have hviews := congrArg List.dropLast hrep.views
  rw [← List.map_dropLast, ← List.map_dropLast] at hviews
  have hmem : q.view ∈ (clientRun redisParseReq ReqRegs.quit size chunks).received.dropLast.map
      RecvMsg.view := hviews ▸ List.mem_map_of_mem hq
  obtain ⟨m, hm, hview⟩ := List.mem_map.1 hmem
  have hearly := (clientRun_tracks redisParseReq ReqRegs.quit hpos chunks).early m hm
  -- the message was delivered for a request, of the type that it shows
  have hdel : ∃ q' : Request size, Delivered size (reqMachine size) ReqOutRel m q'.frame := by
    have hlist : ∃ ds rs, qs.map Request.frame = ds ++ rs ∧ List.Forall₂
        (Delivered size (reqMachine size) ReqOutRel)
        (clientRun redisParseReq ReqRegs.quit size chunks).received ds := by
      rcases clientRun_requests hpos hmax hqs (z := []) (by rw [hstream, List.append_nil])
        (h.reads hpos hstream) with
        ⟨-, ds, rs, u, hcut, -, -, hgood⟩ | ⟨-, -, -, ds, rs, u, hcut, -, hdel⟩
      · exact ⟨ds, rs, hcut, hgood.delivered⟩
      · exact ⟨ds, rs, hcut, hdel⟩
    obtain ⟨ds, rs, hcut, hdel⟩ := hlist
    obtain ⟨ds, rs, rfl, rfl, rfl⟩ := List.map_eq_append_iff.1 hcut
    obtain ⟨i, hi, rfl⟩ := List.mem_iff_getElem.1 (List.dropLast_subset _ hm)
    have hget := hdel.get hi (hdel.length_eq ▸ hi)
    simp only [List.get_eq_getElem, List.getElem_map] at hget
    exact ⟨_, hget⟩
  obtain ⟨q', hdel⟩ := hdel
  have htype : q'.type = q.type := by
    have := congrArg ReqView.type (hdel.view_eq.symm.trans hview)
    exact this
  rw [hdel.quit_iff.2 (htype.trans hquit)] at hearly
  cases hearly

theorem clientFramed_of_reads (hstream : chunks.flatten = qs.flatMap Request.encode)
    (hwrap : ∀ x ∈ (clientRun redisParseReq ReqRegs.quit size chunks).reads, wrap32 x ≠ 0)
    (hquit : ∀ q ∈ qs.dropLast, q.type ≠ .reqRedisQuit) : ClientFramed size chunks qs := by
  rintro done later rfl
  have hpre := clientRun_reads_append redisParseReq ReqRegs.quit size done later
  rcases clientRun_requests hpos hmax hqs (z := later.flatten)
    (by rw [← hstream, List.flatten_append]) (fun x hx => hwrap x (hpre.subset hx)) with
    ⟨-, ds, rs, u, hcut, hdone, hrs, hgood⟩ | ⟨heof, hst, hrmsg, ds, rs, u, hcut, hdone, hdel⟩
  · obtain ⟨ds, rs, rfl, rfl, rfl⟩ := List.map_eq_append_iff.1 hcut
    refine ⟨ds, rs, u, rfl, by rw [hdone, stream_frames], ?_, hgood.status,
      views_eq hgood.delivered, hgood.held.pending_eq⟩
    rintro r rs' rfl
    exact hrs r.frame (rs'.map Request.frame) rfl
  · obtain ⟨ds, rs, rfl, rfl, rfl⟩ := List.map_eq_append_iff.1 hcut
    -- the connection has ended with a `QUIT`, which is the last request
    obtain ⟨m, hm, hmquit⟩ := List.any_eq_true.1 heof
    obtain ⟨i, hi, rfl⟩ := List.mem_iff_getElem.1 hm
    have hget := hdel.get hi (hdel.length_eq ▸ hi)
    simp only [List.get_eq_getElem, List.getElem_map] at hget
    have htype := hget.quit_iff.1 hmquit
    cases rs with
    | cons =>
        refine absurd htype (hquit _ ?_)
        rw [List.dropLast_append_of_ne_nil (by simp)]
        exact List.mem_append_left _ (List.getElem_mem _)
    | nil =>
        rw [stream_frames] at hdone
        have hnil : u = [] := by
          rw [List.flatten_append, hdone, List.append_nil, List.append_assoc] at hstream
          have := congrArg List.length hstream
          simp only [List.length_append] at this
          exact List.eq_nil_of_length_eq_zero (by omega)
        subst hnil
        refine ⟨ds, [], [], rfl, hdone, by simp, hst, views_eq hdel, ?_⟩
        rw [Receiver.pending, hrmsg]
        rfl

end Client

/-- **Requests are found in the stream however it is cut, if and only if no read brings the number
of bytes received of a message to a multiple of `2 ^ 32` and no request is behind a `QUIT`.** -/
theorem framed_iff {size : ℕ} (hsize : 464 ≤ size) (hmax : size < 2 ^ 32) {qs : List (Request size)}
    (heval : ∀ q ∈ qs, q.cls ≠ .argeval) {chunks : List (List Byte)}
    (hstream : chunks.flatten = qs.flatMap Request.encode) :
    ClientFramed size chunks qs ↔
      (∀ x ∈ (clientRun redisParseReq ReqRegs.quit size chunks).reads, wrap32 x ≠ 0) ∧
        ∀ q ∈ qs.dropLast, q.type ≠ .reqRedisQuit := by
  have hpos : 0 < size := by omega
  have hqs : ∀ q ∈ qs, q.Accepted := fun q hq => q.accepted hsize (heval q hq)
  constructor
  · exact fun h => ⟨h.reads hpos hstream, h.quit_last hpos hmax hqs hstream⟩
  · rintro ⟨hwrap, hquit⟩
    exact clientFramed_of_reads hpos hmax hqs hstream hwrap hquit

/-- `GET k`. -/
def getRequest : Request 464 where
  name := str "GET"
  args := [str "k"]
  type := .reqRedisGet
  cls := .arg0
  supported := ⟨"get", by decide, rfl, by decide⟩
  class_eq := by decide
  admits := by decide
  count_lt := by decide
  length_lt := by decide
  key_lt := by decide

/-- Two requests, cut in the middle of a name. -/
theorem framed_getRequest_twice :
    ClientFramed 464 [getRequest.encode.take 9, getRequest.encode.drop 9 ++ getRequest.encode]
      [getRequest, getRequest] :=
  (framed_iff (by decide) (by decide) (by decide) (by decide)).2
    ⟨by decide +kernel, by decide +kernel⟩

/-! ### A request that is lost -/

/-- `SET k v`. -/
def setRequest (v : List Byte) (hv : v.length < 2 ^ 32) : Request 464 where
  name := str "SET"
  args := [str "k", v]
  type := .reqRedisSet
  cls := .argn
  supported := ⟨"set", by decide, rfl, by decide⟩
  class_eq := by decide
  admits := Nat.succ_le_succ (Nat.zero_le 1)
  count_lt := by
    change 3 < 2 ^ 32
    decide
  length_lt := by
    intro w hw
    rcases List.mem_pair.1 hw with rfl | rfl
    · decide
    · exact hv
  key_lt := by
    intro k hk
    rw [List.mem_singleton.1 hk]
    decide

theorem length_lt_encode_setRequest (v : List Byte) (hv : v.length < 2 ^ 32) :
    v.length + 1 < (setRequest v hv).encode.length := by
  have hval : v.length ≤ (bulk v).length := by
    simp only [bulk, bulkBody, List.length_append, List.length_cons]
    omega
  have hkey : 2 ≤ (bulk (str "k")).length := by decide
  simp only [Request.encode, respEncode, setRequest, List.flatMap_cons, List.length_append]
  omega

/-- The first `2 ^ 32` bytes of a request arrive in one chunk, the rest in another. -/
theorem not_framed_of_length {q : Request 464} (heval : q.cls ≠ .argeval)
    (hlong : 2 ^ 32 < q.encode.length) :
    ¬ ClientFramed 464 [q.encode.take (2 ^ 32), q.encode.drop (2 ^ 32)] [q] := by
  intro h
  have hwrap := h.reads (by decide) (by simp)
  have hq : ∀ r ∈ [q], r.Accepted := by simpa using q.accepted (by decide) heval
  have hpre := clientRun_reads_append redisParseReq ReqRegs.quit 464 [q.encode.take (2 ^ 32)]
    [q.encode.drop (2 ^ 32)]
  have hgoing := clientRun_requests (z := q.encode.drop (2 ^ 32)) (by decide) (by decide) hq
    (by simp)
    (fun x hx => hwrap x (hpre.subset hx))
  -- nothing can have been reported: the request is longer than the first chunk
  have hnone : ∀ ds rs u, [q].map Request.frame = ds ++ rs →
      [q.encode.take (2 ^ 32)].flatten = stream ds ++ u → ds = [] ∧ u.length = 2 ^ 32 := by
    intro ds rs u hqs hdone
    have hlen := congrArg List.length hdone
    rw [List.flatten_cons, List.flatten_nil, List.append_nil, List.length_append,
      List.length_take] at hlen
    cases ds with
    | cons d =>
        have hd : d = q.frame := by simpa using (List.cons.inj hqs).1.symm
        rw [stream_cons, List.length_append, hd] at hlen
        change _ = q.encode.length + _ + _ at hlen
        omega
    | nil =>
        rw [stream_nil, List.length_nil, Nat.zero_add] at hlen
        exact ⟨rfl, by omega⟩
  rcases hgoing with ⟨-, ds, rs, u, hqs, hdone, -, hgood⟩ | ⟨heof, -, -, ds, rs, u, hqs, hdone,
    hdel⟩
  · obtain ⟨-, hu⟩ := hnone ds rs u hqs hdone
    refine hgood.counted ?_ (by rw [hu]; rfl)
    rintro rfl
    exact absurd hu (by decide)
  · obtain ⟨rfl, -⟩ := hnone ds rs u hqs hdone
    rw [Receiver.eof, List.forall₂_nil_right_iff.1 hdel] at heof
    cases heof

/-- `SET k v` with a value of `2 ^ 32 - 1` bytes. -/
def hugeSet : Request 464 :=
  setRequest (List.replicate (2 ^ 32 - 1) 0) (by rw [List.length_replicate]; decide)

/-- **A request that is lost.** -/
theorem not_framed_hugeSet :
    hugeSet.cls ≠ .argeval ∧
      [hugeSet.encode.take (2 ^ 32), hugeSet.encode.drop (2 ^ 32)].flatten = hugeSet.encode ∧
      ¬ ClientFramed 464 [hugeSet.encode.take (2 ^ 32), hugeSet.encode.drop (2 ^ 32)]
        [hugeSet] := by
  have hcls : hugeSet.cls ≠ .argeval := by
    change ArgClass.argn ≠ .argeval
    decide
  refine ⟨hcls, by simp, not_framed_of_length hcls ?_⟩
  have hval : (List.replicate (2 ^ 32 - 1) (0 : Byte)).length = 2 ^ 32 - 1 := List.length_replicate
  calc 2 ^ 32 = (List.replicate (2 ^ 32 - 1) (0 : Byte)).length + 1 := by omega
    _ < hugeSet.encode.length := length_lt_encode_setRequest _ _

end CacheProxy
