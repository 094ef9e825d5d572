/-
**Streams of messages, framed.**

A stream is the concatenation of the encodings of messages.  It is framed by a receiving connection
if after every chunk the messages whose last byte has arrived have been reported, in order, each
showing what it has to show, and the rest is held.  When the machine behind buffers accepts every
encoding, this is so exactly if the length recorded for a message never wraps to zero.

Main definitions:

* `FramedAs` — the stream is framed.

Main results:

* `framedAs_iff` — **framing fails only by a length that wraps**;
* `not_framedAs_of_length` — a message of more than `2 ^ 32` bytes can be lost.
-/

import CacheProxy.Framing

namespace CacheProxy

variable {α ω ρ γ : Type}

/-- **The stream is framed**: after any number of chunks no error was reported, the messages whose
last byte has arrived have been reported, in order, and what is held is part of the next one. -/
def FramedAs (P : Parser ρ) (size : ℕ) (encode : γ → List Byte) (shows : RecvMsg ρ → γ → Prop)
    (chunks : List (List Byte)) (qs : List γ) : Prop :=
  ∀ done later, chunks = done ++ later → ∃ ds rs u, qs = ds ++ rs ∧
    done.flatten = ds.flatMap encode ++ u ∧
    (∀ r rs', rs = r :: rs' → u.length < (encode r).length) ∧
    (recvRun P size done).status = .ok ∧
    List.Forall₂ shows (recvRun P size done).received ds ∧ (recvRun P size done).pending = u

/-- The lengths of the messages are those of what they show. -/
theorem lengths_of_shows {encode : γ → List Byte} {shows : RecvMsg ρ → γ → Prop}
    (hbytes : ∀ m q, shows m q → m.bytes = encode q) {ms : List (RecvMsg ρ)} {ds : List γ}
    (h : List.Forall₂ shows ms ds) :
    (ms.map fun m => m.bytes.length) = ds.map fun q => (encode q).length := by
  induction h with
  | nil => rfl
  | cons hm _ ih => rw [List.map_cons, List.map_cons, ih, hbytes _ _ hm]

theorem forall₂_imp_mem {β δ : Type} {R S : β → δ → Prop} {xs : List β} {ys : List δ}
    (himp : ∀ x, ∀ y ∈ ys, R x y → S x y) (h : List.Forall₂ R xs ys) : List.Forall₂ S xs ys := by
  induction h with
  | nil => exact .nil
  | cons hxy _ ih =>
    exact .cons (himp _ _ (by simp) hxy) (ih fun x y hy => himp x y (by simp [hy]))

section

variable {size : ℕ} {P : Parser ρ} {M : ByteMachine α ω} {Rel : List Mbuf → ℕ → α → ρ → Prop}
  {Out : List Mbuf → ω → ρ → Prop} {encode : γ → List Byte} {shows : RecvMsg ρ → γ → Prop}

/-- Bytes of a stream that is framed are not dropped, so that no length has wrapped to zero. -/
theorem reads_of_framedAs (hpos : 0 < size) (hbytes : ∀ m q, shows m q → m.bytes = encode q)
    {qs : List γ} {chunks : List (List Byte)} (h : FramedAs P size encode shows chunks qs) :
    ∀ x ∈ (recvRun P size chunks).reads, wrap32 x ≠ 0 := by
  intro x hx hzero
  obtain ⟨ds, rs, u, -, hdone, -, hstatus, hshows, hpending⟩ := h chunks [] (by simp)
  have hdropped := recvRun_dropped_of_wrap hpos hstatus ⟨x, hx, hzero⟩
  have hcount := recvRun_conserves hpos hstatus
  -- the reported messages and the bytes held are all the bytes that arrived
  have hsum : ((recvRun P size chunks).received.map fun m => m.bytes.length).sum =
      (ds.flatMap encode).length := by
    rw [List.length_flatMap, lengths_of_shows hbytes hshows]
  rw [hpending, Receiver.settled, hsum, hdone, List.length_append] at hcount
  exact hdropped (List.eq_nil_of_length_eq_zero (by omega))

/-- The one message of a stream that is framed is reported. -/
theorem reported_of_framedAs (hbytes : ∀ m q, shows m q → m.bytes = encode q) {q : γ}
    {chunks : List (List Byte)} (hstream : chunks.flatten = encode q)
    (h : FramedAs P size encode shows chunks [q]) :
    ∃ m ∈ (recvRun P size chunks).received, m.bytes = encode q := by
  obtain ⟨ds, rs, u, hds, hdone, hrs, -, hshows, -⟩ := h chunks [] (by simp)
  cases ds with
  | nil =>
    -- All bytes have arrived, so that nothing is held.
    have hlt := hrs q [] hds.symm
    rw [← hstream, hdone, List.flatMap_nil, List.nil_append] at hlt
    exact absurd hlt (lt_irrefl _)
  | cons =>
    obtain ⟨rfl, -⟩ := List.cons.inj hds
    obtain ⟨m, ms, hm, -, hrec⟩ := List.forall₂_cons_right_iff.mp hshows
    exact ⟨m, by rw [hrec]; exact List.mem_cons_self, hbytes m q hm⟩

variable (sim : Simulation size P M Rel Out) (hpos : 0 < size) (hmax : size < 2 ^ 32)
  (out : γ → ω) {qs : List γ}
  (haccepts : ∀ q ∈ qs, (M.buffered size).Accepts (M.Safe size) (M.init, 0) (encode q) (out q))

include sim hpos hmax haccepts

/-- What is received of the messages, as long as no read wraps a length to zero. -/
theorem recvRun_going {chunks : List (List Byte)} {z : List Byte}
    (hstream : qs.flatMap encode = chunks.flatten ++ z)
    (hwrap : ∀ x ∈ (recvRun P size chunks).reads, wrap32 x ≠ 0) :
    Going size M Rel Out (qs.map fun q => (encode q, out q)) (recvRun P size chunks)
      chunks.flatten := by
  have hgs : ∀ g ∈ qs.map (fun q => (encode q, out q)),
      (M.buffered size).Accepts (M.Safe size) (M.init, 0) g.1 g.2 := by
    intro g hg
    obtain ⟨q, hq, rfl⟩ := List.mem_map.1 hg
    exact haccepts q hq
  have hall : stream (qs.map fun q => (encode q, out q)) = qs.flatMap encode := by
    simp [stream, List.flatMap_map]
  rcases recvRun_upTo sim hmax (.inl rfl) hpos hgs
    (by rw [hall, List.append_nil, hstream]) hwrap with
    hgoing | ⟨hne, -⟩
  · exact hgoing
  · exact absurd rfl hne

theorem framedAs_of_reads
    (hshows : ∀ m, ∀ q ∈ qs, Delivered size M Out m (encode q, out q) → shows m q)
    {chunks : List (List Byte)} (hstream : chunks.flatten = qs.flatMap encode)
    (hwrap : ∀ x ∈ (recvRun P size chunks).reads, wrap32 x ≠ 0) :
    FramedAs P size encode shows chunks qs := by
  rintro done later rfl
  have hpre := recvRun_reads_append P size done later
  obtain ⟨ds, rs, u, hcut, hdone, hrs, hgood⟩ :=
    recvRun_going (z := later.flatten) sim hpos hmax out
    haccepts (by rw [← hstream, List.flatten_append]) (fun x hx => hwrap x (hpre.subset hx))
  obtain ⟨ds, rs, rfl, rfl, rfl⟩ := List.map_eq_append_iff.1 hcut
  refine ⟨ds, rs, u, rfl, ?_, ?_, hgood.status, ?_, hgood.held.pending_eq⟩
  · rw [hdone]
    simp [stream, List.flatMap_map]
  · rintro r rs' rfl
    exact hrs _ (rs'.map fun q => (encode q, out q)) rfl
  · exact forall₂_imp_mem (fun m q hq => hshows m q (List.mem_append_left _ hq))
      (List.forall₂_map_right_iff.1 hgood.delivered)

/-- **Messages are found in the stream however it is cut, if and only if no read brings the number
of bytes received of a message to a multiple of `2 ^ 32`.** -/
theorem framedAs_iff (hbytes : ∀ m q, shows m q → m.bytes = encode q)
    (hshows : ∀ m, ∀ q ∈ qs, Delivered size M Out m (encode q, out q) → shows m q)
    {chunks : List (List Byte)} (hstream : chunks.flatten = qs.flatMap encode) :
    FramedAs P size encode shows chunks qs ↔
      ∀ x ∈ (recvRun P size chunks).reads, wrap32 x ≠ 0 :=
  ⟨reads_of_framedAs hpos hbytes, framedAs_of_reads sim hpos hmax out haccepts hshows hstream⟩

end

/-- **A message of more than `2 ^ 32` bytes is lost** when its first `2 ^ 32` bytes arrive in one
chunk and the rest in another. -/
theorem not_framedAs_of_length {size : ℕ} {P : Parser ρ} {M : ByteMachine α ω}
    {Rel : List Mbuf → ℕ → α → ρ → Prop} {Out : List Mbuf → ω → ρ → Prop} {encode : γ → List Byte}
    {shows : RecvMsg ρ → γ → Prop} (sim : Simulation size P M Rel Out) (hpos : 0 < size)
    (hmax : size < 2 ^ 32) {q : γ} {o : ω}
    (haccepts : (M.buffered size).Accepts (M.Safe size) (M.init, 0) (encode q) o)
    (hbytes : ∀ m q, shows m q → m.bytes = encode q) (hlong : 2 ^ 32 < (encode q).length) :
    ¬ FramedAs P size encode shows [(encode q).take (2 ^ 32), (encode q).drop (2 ^ 32)] [q] := by
  intro h
  have hwrap := reads_of_framedAs hpos hbytes h
  have hpre := recvRun_reads_append P size [(encode q).take (2 ^ 32)] [(encode q).drop (2 ^ 32)]
  have hone : ∀ r ∈ [q], (M.buffered size).Accepts (M.Safe size) (M.init, 0) (encode r) o :=
    fun r hr => List.mem_singleton.1 hr ▸ haccepts
  obtain ⟨ds, rs, u, hqs, hdone, hrs, hgood⟩ :=
    recvRun_going (z := (encode q).drop (2 ^ 32)) sim hpos
    hmax (fun _ => o) hone (by simp) (fun x hx => hwrap x (hpre.subset hx))
  have hlen : (stream ds).length + u.length = 2 ^ 32 := by
    have := congrArg List.length hdone
    rw [List.flatten_cons, List.flatten_nil, List.append_nil, List.length_append,
      List.length_take] at this
    omega
  cases ds with
  | cons d =>
      -- nothing can have been reported: the message is longer than the first chunk
      have hd : d = (encode q, o) := by simpa using (List.cons.inj hqs).1.symm
      rw [stream_cons, List.length_append, hd] at hlen
      change (encode q).length + _ + _ = _ at hlen
      omega
  | nil =>
      rw [stream_nil, List.length_nil, Nat.zero_add] at hlen
      refine hgood.counted ?_ (by rw [hlen]; rfl)
      rintro rfl
      exact absurd hlen (by decide)

/-- **A message that is accepted in one mbuf** is accepted by the machine. -/
theorem Simulation.run_of_parse {size : ℕ} {P : Parser ρ} {M : ByteMachine α ω}
    {Rel : List Mbuf → ℕ → α → ρ → Prop} {Out : List Mbuf → ω → ρ → Prop}
    (sim : Simulation size P M Rel Out) {id : ℕ} {bytes : List Byte} {r : ρ}
    (h : P.parse size (mbufCopy (mbufGet id) bytes) 0 P.init = (.ok, bytes.length, r)) :
    ∃ o, M.run M.init bytes = .done o [] ∧ Out [mbufCopy (mbufGet id) bytes] o r := by
  have hdata : (mbufCopy (mbufGet id) bytes).data = bytes := by simp [mbufGet, Mbuf.data]
  have hstart : Rel ([] ++ [mbufCopy (mbufGet id) bytes]) 0 M.init P.init := sim.start _
  have hdrop : (mbufCopy (mbufGet id) bytes).data.drop 0 = bytes := by rw [List.drop_zero, hdata]
  cases hrun : M.run M.init bytes with
  | fail =>
    have hfail := sim.parse_fail rfl hstart (Nat.zero_le _) (by rw [hdrop]; exact hrun)
    rw [h] at hfail
    cases hfail
  | more a' =>
    by_cases hcase : M.token a' = [] ∨ (mbufCopy (mbufGet id) bytes).data.length ≠ size
    · obtain ⟨r', hparse, -⟩ := sim.parse_more rfl hstart (Nat.zero_le _)
        (by rw [hdrop]; exact hrun) hcase
      cases hparse.symm.trans h
    · rw [not_or, not_not] at hcase
      obtain ⟨-, r', hparse, -⟩ := sim.parse_repair rfl hstart (Nat.zero_le _)
        (by rw [hdrop]; exact hrun) hcase.1 hcase.2
      cases hparse.symm.trans h
  | done o rest =>
    obtain ⟨r', hparse, hout⟩ := sim.parse_done rfl hstart (Nat.zero_le _)
      (by rw [hdrop]; exact hrun)
    rw [hdata] at hparse hout
    have heq := hparse.symm.trans h
    simp only [Prod.mk.injEq, true_and] at heq
    obtain ⟨hlen, rfl⟩ := heq
    obtain ⟨ys, hys, hcut⟩ := ByteMachine.run_done_rest hrun
    have hpos : 0 < ys.length := List.length_pos_iff.2 hys
    have hrest : rest = [] := by
      have := congrArg List.length hcut
      rw [List.length_append] at this
      exact List.length_eq_zero_iff.1 (by omega)
    subst hrest
    refine ⟨o, rfl, ?_⟩
    have htrunc : (mbufCopy (mbufGet id) bytes).truncate (bytes.length - ([] : List Byte).length) =
        mbufCopy (mbufGet id) bytes := by
      simp [Mbuf.truncate, mbufCopy, mbufGet]
    rwa [htrunc] at hout

end CacheProxy
