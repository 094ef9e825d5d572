/-
**The first message of a stream.**

What is reported first depends on the bytes up to its end only.  Whatever follows a frame that the
machine behind buffers accepts, be it well formed or not, nothing is reported before the last byte
of the frame has arrived, and with that byte the frame is reported.

Main definitions:

* `ReportedFirst` — the frame is reported first, at its last byte.

Main results:

* `msgRecv_received` — what was reported stays reported;
* `recvRun_first` — **the first frame is reported whatever follows it**.
-/

import CacheProxy.Framing

namespace CacheProxy

variable {α ω ρ : Type}

/-! ### What was reported stays reported -/

section Reports

variable (P : Parser ρ) (size : ℕ)

theorem msgParsed_received (c : Receiver ρ) (msg : RecvMsg ρ) :
    c.received <+: (msgParsed P c msg).received := by
  unfold msgParsed
  split
  · exact List.prefix_rfl
  · split
    · exact List.prefix_append _ _
    · exact List.prefix_append _ _

theorem msgRepair_received (c : Receiver ρ) (msg : RecvMsg ρ) :
    (msgRepair c msg).received = c.received := by
  unfold msgRepair
  split <;> rfl

theorem msgParse_received (c : Receiver ρ) (msg : RecvMsg ρ) :
    c.received <+: (msgParse P size c msg).1.received := by
  unfold msgParse
  split
  · exact List.prefix_rfl
  · split
    · exact List.prefix_rfl
    · split
      · exact msgParsed_received P c _
      · exact ⟨[], by rw [List.append_nil, msgRepair_received]⟩
      · exact List.prefix_rfl
      · exact List.prefix_rfl

theorem parseLoop_received (fuel : ℕ) : ∀ (c : Receiver ρ) (msg : RecvMsg ρ),
    c.received <+: (parseLoop P size fuel c msg).received := by
  induction fuel with
  | zero => exact fun c msg => List.prefix_rfl
  | succ fuel ih =>
    intro c msg
    have hone := msgParse_received P size c msg
    rw [parseLoop]
    split
    · next h =>
      rw [h] at hone
      exact hone
    · next h =>
      rw [h] at hone
      split
      · exact hone
      · exact hone.trans (ih _ _)

theorem msgRecvChain_received (c : Receiver ρ) (avail : List Byte) :
    c.received <+: (msgRecvChain P size c avail).1.received := by
  have hmbuf : c.received <+: (withMbuf size c (recvNext P c)).1.received := by
    unfold withMbuf
    split <;> exact List.prefix_rfl
  unfold msgRecvChain
  dsimp only
  split
  · exact hmbuf
  · refine List.IsPrefix.trans ?_ (parseLoop_received P size _ _ _)
    exact hmbuf

theorem msgRecv_received (fuel : ℕ) : ∀ (c : Receiver ρ) (avail : List Byte),
    c.received <+: (msgRecv P size fuel c avail).received := by
  induction fuel with
  | zero => exact fun c avail => List.prefix_rfl
  | succ fuel ih =>
    intro c avail
    have hone := msgRecvChain_received P size c avail
    rw [msgRecv]
    split
    · split
      · next h =>
        rw [h] at hone
        exact hone.trans (ih _ _)
      · next h =>
        rw [h] at hone
        exact hone
    · exact List.prefix_rfl

end Reports

/-! ### The first frame -/

/-- **The frame `f` is reported first, at its last byte**: after any number of chunks that end
inside it nothing has been reported and its bytes are held, and after any number that reach its end
it has been, showing what it has to show. -/
def ReportedFirst (P : Parser ρ) (size : ℕ) (f : List Byte) (shows : RecvMsg ρ → Prop)
    (chunks : List (List Byte)) : Prop :=
  ∀ done later, chunks = done ++ later →
    (done.flatten.length < f.length → (recvRun P size done).status = .ok ∧
      (recvRun P size done).received = [] ∧ (recvRun P size done).pending = done.flatten) ∧
    (f.length ≤ done.flatten.length → ∃ m ms, (recvRun P size done).received = m :: ms ∧
      m.bytes = f ∧ shows m)

section First

variable {size : ℕ} {P : Parser ρ} {M : ByteMachine α ω} {Rel : List Mbuf → ℕ → α → ρ → Prop}
  {Out : List Mbuf → ω → ρ → Prop} {f : List Byte × ω}

variable (size M Rel Out f) in
/-- The connection has read `s`, which ends inside the frame, or has reported the frame. -/
def FirstUpTo (c : Receiver ρ) (s : List Byte) : Prop :=
  (s.length < f.1.length ∧ Good size M Rel Out c [] s) ∨
    (f.1.length ≤ s.length ∧ ∃ m ms, c.received = m :: ms ∧ Delivered size M Out m f)

theorem FirstUpTo.of_reported {c c' : Receiver ρ} {s s' : List Byte}
    (hlen : f.1.length ≤ s.length) (hs : s.length ≤ s'.length)
    (h : ∃ m ms, c.received = m :: ms ∧ Delivered size M Out m f)
    (hpre : c.received <+: c'.received) : FirstUpTo size M Rel Out f c' s' := by
  obtain ⟨m, ms, hm, hdel⟩ := h
  obtain ⟨ns, hns⟩ := hpre
  exact .inr ⟨hlen.trans hs, m, ms ++ ns, by rw [← hns, hm, List.cons_append], hdel⟩

variable (sim : Simulation size P M Rel Out)
  (hacc : (M.buffered size).Accepts (M.Safe size) (M.init, 0) f.1 f.2)

include sim hacc

/-- The parser calls after a read. -/
theorem parseLoop_first (fuel : ℕ) {c : Receiver ρ} {msg : RecvMsg ρ} {pre : List Mbuf} {b : Mbuf}
    {v : List Byte} {a : α} {more z : List Byte} (hst : c.status = .ok) (hdrop : c.dropped = [])
    (hrec : c.received = []) (h : HeldAt size M Rel c.nextMbuf msg pre b v a)
    (hlen : wrap32 (content (pre ++ [b])).length ≠ 0)
    (hrun : (M.buffered size).run (M.init, 0) (content (pre ++ [b])) =
      ByteMachine.withFill b.body.length (M.run a v))
    (hstream : f.1 ++ more = content (pre ++ [b]) ++ z) :
    FirstUpTo size M Rel Out f (parseLoop P size (fuel + 1) c msg) (content (pre ++ [b])) := by
  rcases Nat.lt_or_ge (content (pre ++ [b])).length f.1.length with hcase | hcase
  · -- the read ends inside the frame
    obtain ⟨z', hz'⟩ : content (pre ++ [b]) <+: f.1 :=
      List.prefix_of_prefix_length_le (hstream ▸ List.prefix_append _ _)
        (List.prefix_append f.1 more)
        hcase.le
    have hz : z' ≠ [] := by
      rintro rfl
      rw [List.append_nil] at hz'
      rw [hz'] at hcase
      exact Nat.lt_irrefl _ hcase
    rw [← hz'] at hacc
    obtain ⟨x, hl, hx⟩ := hacc.split hz
    exact .inl ⟨hcase, parseLoop_going sim hst hdrop
      (by rw [hrec]; exact .nil) h hlen hrun hl hx.ok_start⟩
  · obtain ⟨z', hz'⟩ : f.1 <+: content (pre ++ [b]) :=
      List.prefix_of_prefix_length_le (List.prefix_append f.1 more)
        (hstream ▸ List.prefix_append _ _)
        hcase
    have hdone : M.run a v = .done f.2 z' := by
      rw [← hz', hacc.run_append] at hrun
      exact withFill_eq_done hrun.symm
    obtain ⟨msg', hmsg', hres⟩ := msgParse_frame sim h hlen hdone hz'.symm hacc
    refine .inr ⟨hcase, ?_⟩
    rw [parseLoop]
    rcases hres with ⟨-, hparse⟩ | ⟨nmsg, nb, -, hparse, -⟩
    · rw [hparse]
      exact ⟨msg', [], by rw [hrec]; rfl, hmsg'⟩
    · -- what is behind the frame is parsed on, whatever it is
      rw [hparse]
      dsimp only
      obtain ⟨ns, hns⟩ := parseLoop_received P size fuel
        { c with rmsg := some nmsg, nextMbuf := c.nextMbuf + 1, received := c.received ++ [msg'] }
          nmsg
      exact ⟨msg', ns, by rw [← hns, hrec]; rfl, hmsg'⟩

variable (hpos : 0 < size) (hshort : f.1.length + size ≤ 2 ^ 32)

include hpos hshort

/-- One read. -/
theorem msgRecvChain_first {c : Receiver ρ} {s avail more z : List Byte}
    (h : s.length < f.1.length ∧ Good size M Rel Out c [] s)
    (hstream : f.1 ++ more = s ++ avail ++ z) :
    ∃ k, (msgRecvChain P size c avail).2.1 = avail.drop k ∧
      ((msgRecvChain P size c avail).2.2 = true → 0 < k ∧ k ≤ avail.length) ∧
      ((msgRecvChain P size c avail).2.2 = false → avail.length ≤ k) ∧
      FirstUpTo size M Rel Out f (msgRecvChain P size c avail).1 (s ++ avail.take k) := by
  obtain ⟨hs, hgood⟩ := h
  obtain ⟨pre, b, v, a, x, hu, hheld, hl, hsafe, hstands, hc⟩ := hgood.held.withMbuf sim hpos
  have hnone : c.received = [] := List.forall₂_nil_right_iff.1 hgood.delivered
  generalize hw : withMbuf size c (recvNext P c) = cm at hheld hc
  obtain ⟨c₁, msg⟩ := cm
  have hsame : c₁.status = .ok ∧ c₁.dropped = [] ∧ c₁.received = [] := by
    rcases hc with hc | hc <;> rw [show c₁ = _ from hc] <;>
      exact ⟨hgood.status, hgood.dropped, hnone⟩
  unfold msgRecvChain
  simp only [hw] at hheld ⊢
  by_cases hav : avail = []
  · refine ⟨0, by simp [hav], by simp [hav], by simp [hav], .inl ⟨by simpa using hs, ?_⟩⟩
    simp only [hav, if_true, List.take_nil, List.append_nil]
    exact ⟨hsame.1, hsame.2.1, by rw [hsame.2.2]; exact .nil,
      Or.inr ⟨msg, pre, b, v, a, x, rfl, hheld, hu, hl, hsafe, .inl hstands⟩, hgood.counted⟩
  · simp only [if_neg hav]
    have hr : recvRoom size msg = size - b.body.length :=
      recvRoom_eq hheld.mhdr (hheld.filling b (by simp)).1
    have hroom := hstands.1
    set room := recvRoom size msg
    have hlen : (avail.take room).length = min room avail.length := List.length_take
    have havpos : 0 < avail.length := List.length_pos_iff.2 hav
    have hne : avail.take room ≠ [] := by
      rw [← List.length_pos_iff]
      omega
    obtain ⟨hheld', hcont⟩ := hheld.recvBytes sim (avail.take room) (by omega)
    rw [hu] at hcont
    -- the frame and what fits in a buffer behind it are too short to wrap the length
    have hnz : wrap32 (content (pre ++ [mbufCopy b (avail.take room)])).length ≠ 0 := by
      rw [hcont, List.length_append, wrap32_of_lt (by omega)]
      omega
    have hrun : (M.buffered size).run (M.init, 0)
        (content (pre ++ [mbufCopy b (avail.take room)])) =
        ByteMachine.withFill (mbufCopy b (avail.take room)).body.length
          (M.run a (v ++ avail.take room)) := by
      rw [hcont, hl.run_append, hstands.2 _ hne (by omega), mbufCopy_body, List.length_append]
    have hfut : f.1 ++ more =
        content (pre ++ [mbufCopy b (avail.take room)]) ++ (avail.drop room ++ z) := by
      rw [hcont, hstream, List.append_assoc s (avail.take room),
        ← List.append_assoc (avail.take room), List.take_append_drop, List.append_assoc]
    have hloop := parseLoop_first sim hacc (recvBytes msg (avail.take room)).bytes.length
      (c := { c₁ with reads := c₁.reads ++ [msg.mlen + (avail.take room).length] }) hsame.1
        hsame.2.1 hsame.2.2 hheld' hnz hrun hfut
    rw [hcont] at hloop
    refine ⟨room, rfl, ?_, ?_, hloop⟩
    · intro hready
      have : room ≤ avail.length := by simpa using hready
      omega
    · intro hready
      have : ¬ room ≤ avail.length := by simpa using hready
      omega

theorem msgRecv_first {fuel : ℕ} {c : Receiver ρ} {s avail more z : List Byte}
    (h : FirstUpTo size M Rel Out f c s) (hstream : f.1 ++ more = s ++ avail ++ z)
    (hfuel : avail.length < fuel) :
    FirstUpTo size M Rel Out f (msgRecv P size fuel c avail) (s ++ avail) := by
  induction fuel generalizing c s avail with
  | zero => omega
  | succ fuel ih =>
    rcases h with h | ⟨hle, hrep⟩
    swap
    · exact .of_reported hle (by simp) hrep (msgRecv_received P size _ c avail)
    rw [msgRecv]
    simp only [h.2.status]
    have hone := msgRecvChain_first sim hacc hpos hshort h hstream
    generalize hres : msgRecvChain P size c avail = res at hone ⊢
    obtain ⟨c', rest, ready⟩ := res
    cases ready with
    | true =>
      simp only at hone ⊢
      obtain ⟨k, rfl, hready, -, hup⟩ := hone
      obtain ⟨hk, hkl⟩ := hready trivial
      have hcut : s ++ avail = s ++ avail.take k ++ avail.drop k := by
        rw [List.append_assoc, List.take_append_drop]
      rw [hcut]
      refine ih hup (by rw [hstream, hcut]) ?_
      rw [List.length_drop]
      omega
    | false =>
      simp only at hone ⊢
      obtain ⟨k, -, -, hlast, hup⟩ := hone
      rwa [List.take_of_length_le (hlast trivial)] at hup

theorem recvRun_firstUpTo {chunks : List (List Byte)} {more z : List Byte}
    (hstream : f.1 ++ more = chunks.flatten ++ z) :
    FirstUpTo size M Rel Out f (recvRun P size chunks) chunks.flatten := by
  induction chunks using List.reverseRecOn generalizing z with
  | nil =>
    exact .inl ⟨List.length_pos_iff.2 hacc.ne_nil, rfl, rfl, .nil, Or.inl ⟨rfl, rfl⟩, by simp⟩
  | append_singleton chunks chunk ih =>
    have hflat : (chunks ++ [chunk]).flatten = chunks.flatten ++ chunk := by simp
    rw [hflat] at hstream
    rw [recvRun_concat, hflat]
    exact msgRecv_first sim hacc hpos hshort (ih (by rw [hstream, List.append_assoc])) hstream
      (Nat.lt_succ_self _)

/-- **The first frame is reported at its last byte, whatever follows it** and however the stream is
cut into chunks. -/
theorem recvRun_first {shows : RecvMsg ρ → Prop} (hshows : ∀ m, Delivered size M Out m f → shows m)
    {chunks : List (List Byte)} {more : List Byte} (hstream : chunks.flatten = f.1 ++ more) :
    ReportedFirst P size f.1 shows chunks := by
  rintro done later rfl
  rw [List.flatten_append] at hstream
  have hup := recvRun_firstUpTo sim hacc hpos hshort hstream.symm
  constructor
  · intro hlt
    rcases hup with ⟨-, hgood⟩ | ⟨hle, -⟩
    · exact ⟨hgood.status, List.forall₂_nil_right_iff.1 hgood.delivered, hgood.held.pending_eq⟩
    · omega
  · intro hle
    rcases hup with ⟨hlt, -⟩ | ⟨-, m, ms, hm, hdel⟩
    · omega
    · exact ⟨m, ms, hm, hdel.bytes, hshows m hdel⟩

end First

end CacheProxy
