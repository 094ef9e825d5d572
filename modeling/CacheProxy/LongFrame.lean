/-
**Frames of more than `2 ^ 32` bytes.**

The received length of a message is a `uint32_t`, and a message whose length is `0` is thrown away.
A longer frame is still delivered when no read ends where the length wraps to zero.  This module
cuts such a frame into chunks that are read one by one: single bytes, but for the two around the
critical place.

Main results:

* `recvRun_reads_concat` — a chunk that fits in the buffer is one read;
* `exists_chunks` — **a frame of more than `2 ^ 32` bytes can be received** unless a buffer ends at
  the critical place.
-/

import CacheProxy.Framing

namespace CacheProxy

variable {α ω ρ : Type} {size : ℕ} {P : Parser ρ} {M : ByteMachine α ω}
  {Rel : List Mbuf → ℕ → α → ρ → Prop} {Out : List Mbuf → ω → ρ → Prop}
  (sim : Simulation size P M Rel Out) (hsize : size < 2 ^ 32) (hpos : 0 < size)
  {f : List Byte × ω} (hacc : (M.buffered size).Accepts (M.Safe size) (M.init, 0) f.1 f.2)

include sim hsize hpos hacc

/-- A part of the frame is held. -/
theorem good_of_part {cs : List (List Byte)} {z : List Byte} (hstream : f.1 = cs.flatten ++ z)
    (hz : z ≠ []) (hwrap : ∀ x ∈ (recvRun P size cs).reads, wrap32 x ≠ 0) :
    Good size M Rel Out (recvRun P size cs) [] cs.flatten := by
  have hgs : ∀ g ∈ [f], (M.buffered size).Accepts (M.Safe size) (M.init, 0) g.1 g.2 := by
    simpa using hacc
  rcases recvRun_upTo sim hsize (.inl rfl) hpos hgs (by simpa using hstream) hwrap with
    ⟨ds, rs, u, hcut, hu, -, hgood⟩ | ⟨hne, -⟩
  · cases ds with
    | nil =>
        rw [stream_nil, List.nil_append] at hu
        rwa [hu]
    | cons d ds =>
        -- the whole frame would have arrived
        have hd : f = d := (List.cons.inj hcut).1
        have hlen := congrArg List.length hu
        have hall := congrArg List.length hstream
        have hzpos := List.length_pos_iff.2 hz
        rw [stream_cons, List.length_append, List.length_append, ← hd] at hlen
        rw [List.length_append] at hall
        omega
  · exact absurd rfl hne

/-- **A chunk that fits in the buffer is one read**: a single byte, or more if there is room. -/
theorem recvRun_reads_concat {cs : List (List Byte)} {bs z : List Byte}
    (hstream : f.1 = cs.flatten ++ (bs ++ z)) (hne : bs ≠ [])
    (hwrap : ∀ x ∈ (recvRun P size cs).reads, wrap32 x ≠ 0)
    (hroom : bs.length = 1 ∨ ∃ a m c a', M.step a c = .more a' ∧ m + bs.length ≤ size ∧
      (M.buffered size).Leads (M.Safe size) (M.init, 0) cs.flatten (a, m)) :
    (recvRun P size (cs ++ [bs])).reads =
      (recvRun P size cs).reads ++ [wrap32 cs.flatten.length + bs.length] := by
  have hgood := good_of_part sim hsize hpos hacc hstream (by simp [hne]) hwrap
  have hlen := List.length_pos_iff.2 hne
  rw [recvRun_concat, msgRecv_reads_eq hgood.status hne, hgood.held.withMbuf_mlen]
  rcases hgood.held.recvRoom_eq (P := P) with hfull | ⟨a, v, x, n, hl, hstands, hleft⟩
  · rw [hfull]
    rcases hroom with hone | ⟨_, m, _, _, _, hm, _⟩ <;> omega
  · rw [hleft]
    have hn := hstands.1
    rcases hroom with hone | ⟨a₁, m, c, a₂, hstep, hm, hl'⟩
    · omega
    · cases hl.unique hl'
      rw [hstands.fill_eq (by omega) hstep]
      omega

/-- Bytes that arrive one by one. -/
theorem reads_singles {cs : List (List Byte)} {ys z : List Byte}
    (hstream : f.1 = cs.flatten ++ (ys ++ z))
    (hwrap : ∀ x ∈ (recvRun P size cs).reads, wrap32 x ≠ 0)
    (hys : ∀ k, k < ys.length → wrap32 (cs.flatten.length + k + 1) ≠ 0) :
    ∀ x ∈ (recvRun P size (cs ++ ys.map fun y => [y])).reads, wrap32 x ≠ 0 := by
  induction ys using List.reverseRecOn generalizing z with
  | nil => simpa using hwrap
  | append_singleton ys y ih =>
      have hflat : (cs ++ ys.map fun y => [y]).flatten = cs.flatten ++ ys := by
        rw [List.flatten_append, ← List.flatMap_def, List.flatMap_singleton']
      have hbefore := ih (z := y :: z) (by rw [hstream]; simp) fun k hk => hys k (by
        rw [List.length_append]
        omega)
      have hread := recvRun_reads_concat sim hsize hpos hacc
        (show f.1 = _ ++ ([y] ++ z) by rw [hflat, hstream]; simp) (by simp) hbefore (.inl rfl)
      rw [List.map_append, List.map_singleton, ← List.append_assoc, hread]
      intro x hx
      rcases List.mem_append.1 hx with hx | hx
      · exact hbefore x hx
      · rw [List.mem_singleton.1 hx, hflat, List.length_append, List.length_singleton]
        have := hys ys.length (by simp)
        simp only [wrap32] at this ⊢
        omega

/-- **A frame of more than `2 ^ 32` bytes can be received**, if the buffer that the byte before the
critical place is in has room for two more. -/
theorem exists_chunks (hlong : 2 ^ 32 < f.1.length) (hshort : f.1.length < 2 ^ 33) {a a' : α}
    {m : ℕ}
    {c : Byte}
    (hl : (M.buffered size).Leads (M.Safe size) (M.init, 0) (f.1.take (2 ^ 32 - 1)) (a, m))
    (hstep : M.step a c = .more a') (hm : m + 2 ≤ size) :
    ∃ chunks : List (List Byte), chunks.flatten = f.1 ∧
      ∀ x ∈ (recvRun P size chunks).reads, wrap32 x ≠ 0 := by
  obtain ⟨p, bs, r, hf, hp, hbs⟩ : ∃ p bs r, f.1 = p ++ (bs ++ r) ∧ p.length = 2 ^ 32 - 1 ∧
      bs.length = 2 := by
    refine ⟨f.1.take (2 ^ 32 - 1), (f.1.drop (2 ^ 32 - 1)).take 2,
      (f.1.drop (2 ^ 32 - 1)).drop 2, ?_, ?_, ?_⟩
    · rw [List.take_append_drop, List.take_append_drop]
    · rw [List.length_take]
      omega
    · rw [List.length_take, List.length_drop]
      omega
  have htotal := congrArg List.length hf
  rw [List.length_append, List.length_append] at htotal
  have htake : f.1.take (2 ^ 32 - 1) = p := by
    rw [hf, ← hp, List.take_left]
  rw [htake] at hl
  have hsingle : ∀ ys : List Byte, (ys.map fun y => [y]).flatten = ys := by
    intro ys
    rw [← List.flatMap_def, List.flatMap_singleton']
  -- up to the critical place, across it, and behind it
  have hone : ∀ x ∈ (recvRun P size (p.map fun y => [y])).reads, wrap32 x ≠ 0 := by
    refine reads_singles sim hsize hpos hacc
      (show f.1 = ([] : List (List Byte)).flatten ++ (p ++ (bs ++ r)) by simpa using hf)
      (by simp [recvRun]) fun k hk => ?_
    simp only [wrap32, List.flatten_nil, List.length_nil]
    omega
  have htwo : ∀ x ∈ (recvRun P size ((p.map fun y => [y]) ++ [bs])).reads, wrap32 x ≠ 0 := by
    rw [recvRun_reads_concat sim hsize hpos hacc (by rw [hsingle, hf])
      (List.length_pos_iff.1 (by omega)) hone
      (.inr ⟨a, m, c, a', hstep, by omega, by rwa [hsingle]⟩)]
    intro x hx
    rcases List.mem_append.1 hx with hx | hx
    · exact hone x hx
    · rw [List.mem_singleton.1 hx, hsingle, hp, hbs]
      decide
  have hpre : ((p.map fun y => [y]) ++ [bs]).flatten = p ++ bs := by
    rw [List.flatten_append, hsingle]
    simp
  refine ⟨((p.map fun y => [y]) ++ [bs]) ++ r.map fun y => [y], ?_, ?_⟩
  · rw [List.flatten_append, hpre, hsingle, hf, List.append_assoc]
  · refine reads_singles sim hsize hpos hacc (z := []) (by rw [hpre, hf]; simp) htwo
      fun k hk => ?_
    rw [hpre, List.length_append]
    simp only [wrap32]
    omega

end CacheProxy
