/-
**The journal: what is known of a request when it is given back.**

Every call of `req_put` leaves a note.  Where the call stands in the source decides whether the
request has a response then: a request that was answered has one, a request that no server has
answered has none.  A response without an owner is an error that the proxy made, so the request is
in error.  The timestamps of a request that was sent, answered and finished are those of its own
read and of its own last write, if no read completes two requests.

Main definitions:

* `Answered` — requests that are done have a response or are in error;
* `Journal`, `Clock` — the notes, and the times in them.
-/

import CacheProxy.LedgerOrder

namespace CacheProxy

open Function (update)
open Ledger

variable {mode : Mode} {hold : ℕ → Prop} {b b' : Ledger} {c m r s : ℕ}

/-! ### Responses -/

/-- **A request that is done has a response or is in error**, and only a request in error has a
response that no connection owns. -/
structure Answered (b : Ledger) : Prop where
  answered : ∀ c m, b.InClient c m → b.done m = true → b.fault m = true ∨ b.peer m ≠ none
  blamed : ∀ q r, b.Live q → b.request q = true → b.peer q = some r → b.owner r = none →
    b.fault q = true

namespace Answered

theorem take (h : Answered b) (hq : Queues b) (hl : Links b) (request : Bool) (owner : Option ℕ)
    (swallow bare : Bool) : Answered (b.take request owner swallow bare) := by
  have hclient := hq.client
  have hpair := hl.pair
  obtain ⟨h1, h2⟩ := h
  refine ⟨?_, ?_⟩ <;> dsimp only [Ledger.take, InClient, Live] at *
  all_goals grind only [Function.update_apply]

/-- Requests leave the queues of clients. -/
theorem setQueues (h : Answered b) {inQ outQ : ℕ → List ℕ} {kind : ℕ → ConnKind}
    (sub : ∀ c k, kind c = .client → k ∈ outQ c → b.InClient c k) :
    Answered { b with inQ := inQ, outQ := outQ, kind := kind } where
  answered := fun c k hk => h.answered c k (sub c k hk.1 hk.2)
  blamed := h.blamed

theorem setDone (h : Answered b) (v : Bool) (free : ∀ c, ¬ b.InClient c m) :
    Answered { b with done := update b.done m v } := by
  refine ⟨fun c k hk hd => h.answered c k hk ?_, h.blamed⟩
  refine (Function.update_of_ne ?_ _ _).symm.trans hd
  rintro rfl
  exact free c hk

/-- A request is done and in error. -/
theorem setFailed (h : Answered b) (m : ℕ) :
    Answered { b with done := update b.done m true, fault := update b.fault m true } := by
  obtain ⟨h1, h2⟩ := h
  refine ⟨?_, ?_⟩ <;> dsimp only [InClient, Live] at *
  all_goals grind only [Function.update_apply]

theorem link (h : Answered b) (hl : Links b) (live : b.Live m)
    (response : b.request r = false) (owner : b.owner r = none → b.fault m = true) :
    Answered (b.link m r) := by
  have hpair := hl.pair
  obtain ⟨h1, h2⟩ := h
  refine ⟨?_, ?_⟩ <;> dsimp only [Ledger.link, InClient, Live] at *
  all_goals grind only [Function.update_apply]

/-- The response of a request is given back that is in error or in no queue of a client. -/
theorem unlink (h : Answered b) (client : ∀ c k, b.InClient c k → b.request k = true)
    (response : ∀ r, b.peer m = some r → b.request r = false)
    (free : b.fault m = true ∨ ∀ c, ¬ b.InClient c m) : Answered (b.unlink m) := by
  obtain ⟨h1, h2⟩ := h
  refine ⟨?_, ?_⟩ <;> dsimp only [Ledger.unlink, InClient, Live] at *
  all_goals grind

/-- A request that is in no queue of a client is given back. -/
theorem put (h : Answered b) (client : ∀ c k, b.InClient c k → b.request k = true)
    (response : ∀ r, b.peer m = some r → b.request r = false)
    (free : ∀ c, ¬ b.InClient c m) : Answered (b.put m) := by
  obtain ⟨h1, h2⟩ := h.unlink client response (.inr free)
  refine ⟨h1, fun q r hq hreq => h2 q r ⟨hq.1, ?_⟩ hreq⟩
  by_cases hqm : q = m
  · subst hqm
    have := hq.2
    simp [Ledger.put, Ledger.free] at this
  · exact (Function.update_of_ne hqm _ _).symm.trans hq.2

theorem free (h : Answered b) (m : ℕ) : Answered (b.free m) := by
  refine ⟨h.answered, fun q r hq => h.blamed q r ⟨hq.1, ?_⟩⟩
  have := hq.2
  dsimp only [Ledger.free] at this
  grind only [Function.update_apply]

theorem leave (h : Answered b) (m : ℕ) (kind : b.kind s = .server) : Answered (b.leave s m) := by
  have h1 : Answered { b with
      inQ := (b.leave s m).inQ, outQ := (b.leave s m).outQ, kind := b.kind } :=
    h.setQueues fun c k hk hm => (Queues.inClient_leave kind m c k).1 ⟨hk, hm⟩
  exact { h1 with }

theorem retire (h : Answered b) (c m : ℕ) : Answered (b.retire c m) := by
  refine ⟨fun d k hk => h.answered d k ⟨hk.1, ?_⟩, h.blamed⟩
  have := hk.2
  dsimp only [Ledger.retire] at this
  grind only [Function.update_apply, List.mem_of_mem_erase]

/-- A request of a client is taken from the queue and given back. -/
theorem retirePut (h : Answered b) (hq : Queues b) (hl : Links b) (queued : b.InClient c m) :
    Answered ((b.retire c m).put m) := by
  obtain ⟨hlive, hreq, -⟩ := hq.client c m queued
  refine (h.retire c m).put (fun d k hk => (hq.client d k ⟨hk.1, ?_⟩).2.1) (fun r hr => ?_)
    (hq.not_inClient_retire queued)
  · have := hk.2
    dsimp only [Ledger.retire] at this
    grind only [Function.update_apply, List.mem_of_mem_erase]
  · have := (hl.pair m r hlive hr).2.2
    rwa [hreq] at this

/-- Requests move between the queues of a server. -/
theorem setServer (h : Answered b) (kind : b.kind s = .server) (q q' : List ℕ) :
    Answered { b with inQ := update b.inQ s q, outQ := update b.outQ s q' } := by
  refine ⟨fun d k hk => h.answered d k ⟨hk.1, ?_⟩, h.blamed⟩
  have hds : d ≠ s := by
    rintro rfl
    have := hk.1
    simp [kind] at this
  simpa [Function.update_of_ne hds] using hk.2

theorem move (h : Answered b) (hq : Queues b) (hl : Links b)
    (hmove : Move mode hold b b') : Answered b' := by
  cases hmove with
  | idle bare fault awake keeps waits stays =>
    exact ⟨fun c m hm hd => (h.answered c m hm hd).imp_left (stays m),
      fun q r hq hr hp ho => stays q (h.blamed q r hq hr hp ho)⟩
  | @connect c kind connecting awake unused =>
    have hout := hq.outEmpty c (by simp [unused]) (by simp [unused])
    refine ⟨fun d k hk => h.answered d k ⟨?_, hk.2⟩, h.blamed⟩
    have hdc : d ≠ c := by
      rintro rfl
      simpa [hout] using hk.2
    exact (Function.update_of_ne hdc _ _).symm.trans hk.1
  | @listen c => exact { h.take hq hl true (some c) false true with }
  | @split c m n =>
    have hids : ∀ {k}, k < b.nextMsg → k ∉ List.range' b.nextMsg n := by
      intro k hk
      rw [List.mem_range'_1]
      omega
    refine ⟨fun d k hk hd => ?_, fun q r hlive hreq hp ho => ?_⟩
    · have hlt := (hq.client d k hk).1.1
      simp only [Ledger.split, if_neg (hids hlt)] at hd ⊢
      exact h.answered d k hk hd
    · have hqids : q ∉ List.range' b.nextMsg n := by
        intro hmem
        simp only [Ledger.split, if_pos hmem] at hp
        cases hp
      simp only [Ledger.split, if_neg hqids] at hreq hp ⊢
      have hqlive : b.Live q := ⟨by
        rw [List.mem_range'_1] at hqids
        have : q < b.nextMsg + n := hlive.1
        omega, hlive.2⟩
      have hr := (hl.pair q r hqlive hp).1.1
      simp only [Ledger.split, if_neg (hids hr)] at ho
      exact h.blamed q r hqlive hreq hp ho
  | @queue c m joins =>
    refine ⟨fun d k hk hd => h.answered d k ⟨hk.1, ?_⟩ hd, h.blamed⟩
    have hkm : k ≠ m := by
      rintro rfl
      simp [joins.loose.1.done] at hd
    have := hk.2
    dsimp only at this
    grind only [Function.update_apply, List.mem_append, List.mem_singleton]
  | @make c m times joins =>
    have hu := joins.loose.1
    have hne : m ≠ b.nextMsg := hu.live.1.ne
    have h1 := ((h.take hq hl false (some c) false true).setDone (m := m) true fun d hd =>
      joins.loose.2 d hd.2).link (m := m) (r := b.nextMsg)
      { (hl.take hq false (some c) false true).setDone m with }
      ⟨Nat.lt_succ_of_lt hu.live.1, hu.live.2⟩ (Function.update_self ..) (by simp [Ledger.take])
    refine ⟨fun d k hk hd => ?_, h1.blamed⟩
    by_cases hkm : k = m
    · subst hkm
      exact .inr (by simp [Ledger.link, Ledger.take, Ledger.start, Function.update_of_ne hne])
    · have hk' : k ∈ update b.outQ c (b.outQ c ++ [m]) d := hk.2
      have hout : k ∈ b.outQ d := by
        grind only [Function.update_apply, List.mem_append, List.mem_singleton]
      exact h1.answered d k ⟨hk.1, hout⟩ hd
  | @auth s c key bare =>
    exact { h.take hq hl true (some c) true bare with }
  | @select s key bare =>
    exact { h.take hq hl true none true bare with }
  | @sent s m rest kind =>
    cases hn : b.noreply m
    · exact { h.setServer kind rest (b.outQ s ++ [m]) with }
    · exact { h with }
  | @skip s m kind =>
    cases hn : b.noreply m
    · exact { h.setServer kind ((b.inQ s).erase m) (b.outQ s ++ [m]) with }
    · exact { h with }
  | @unforwarded m => exact { h.setFailed m with }
  | @fail s m queued =>
    exact { (h.leave m queued.1).setFailed m with }
  | @drop s m queued closing either =>
    have hfree : ∀ d, ¬ (b.leave s m).InClient d m := by
      intro d hd
      rw [Queues.inClient_leave queued.1] at hd
      rcases either with hs | hn
      · simp [(hq.client d m hd).2.2.2] at hs
      · exact hq.apart s d m queued hn hd
    have h1 := (h.leave m queued.1).put (m := m)
      (fun d k hk => (hq.client d k ((Queues.inClient_leave queued.1 m d k).1 hk)).2.1)
      (by simp [Ledger.leave, (hq.server s m queued).2.2.2]) hfree
    exact { h1 with }
  | @answer s m rest bare times kind closing mute first =>
    have hs : b.InServer s m := ⟨kind, .inr (by simp [first])⟩
    obtain ⟨hlive, -⟩ := hq.server s m hs
    have hne : m ≠ b.nextMsg := hlive.1.ne
    have h1 := ((h.take hq hl false (some s) false bare).leave m kind).link (m := m)
      (r := b.nextMsg) { (hl.take hq false (some s) false bare).leave m kind with }
      ⟨Nat.lt_succ_of_lt hlive.1, hlive.2⟩ (Function.update_self ..)
      (by simp [Ledger.take, Ledger.leave])
    refine ⟨fun d k hk hd => ?_, h1.blamed⟩
    by_cases hkm : k = m
    · subst hkm
      exact .inr (by simp [Ledger.link, Ledger.bump, Ledger.start, Function.update_of_ne hne])
    · exact h1.answered d k hk ((Function.update_of_ne hkm _ _).symm.trans hd)
  | @swallowReply s m rest bare times kind closing mute first swallow =>
    have hs : b.InServer s m := ⟨kind, .inr (by simp [first])⟩
    obtain ⟨hlive, -, -, hpeer⟩ := hq.server s m hs
    have hne : m ≠ b.nextMsg := hlive.1.ne
    have h1 : Answered ((b.reply s bare).free b.nextMsg) :=
      { (h.take hq hl false (some s) false bare).free b.nextMsg with }
    have hclient : ∀ d k, (((b.reply s bare).free b.nextMsg).leave s m).InClient d k →
        b.InClient d k := fun d k hk => (Queues.inClient_leave (b := b) kind m d k).1 hk
    have hfree : ∀ d, ¬ (((b.reply s bare).free b.nextMsg).leave s m).InClient d m := fun d hd => by
      simp [(hq.client d m (hclient d m hd)).2.2.2] at swallow
    have h2 := ((h1.leave m kind).setDone (m := m) true hfree).put (m := m) (fun d k hk => ?_)
      (fun r hr => ?_) hfree
    · exact { h2 with }
    · obtain ⟨hk1, hk2, -⟩ := hq.client d k (hclient d k hk)
      exact (Function.update_of_ne hk1.1.ne _ _).trans hk2
    · have : b.peer m = some r := (Function.update_of_ne hne _ _).symm.trans hr
      simp [hpeer] at this
  | @lose s bare =>
    exact { (h.take hq hl false (some s) false bare).free b.nextMsg with }
  | @unlink c m queued done fault =>
    obtain ⟨hlive, hreq, -⟩ := hq.client c m queued
    refine h.unlink (fun d k hk => (hq.client d k hk).2.1) (fun r hr => ?_) (.inl fault)
    simpa [hreq] using (hl.pair m r hlive hr).2.2
  | @blame c m queued done peer fault bare =>
    obtain ⟨hlive, -⟩ := hq.client c m queued
    have hne : m ≠ b.nextMsg := hlive.1.ne
    have h1 := (h.take hq hl false none false bare).link (m := m) (r := b.nextMsg)
      (hl.take hq false none false bare) ⟨Nat.lt_succ_of_lt hlive.1, hlive.2⟩
      (Function.update_self ..) fun _ => (Function.update_of_ne hne _ _).trans fault
    exact { h1 with }
  | @finish c m r queued =>
    exact { h.retirePut hq hl queued with }
  | @fragment c m queued => exact { h.retirePut hq hl queued with }
  | @discard c m queued => exact { h.retirePut hq hl queued with }
  | @swallow c m => exact { h.retire c m with }
  | @put m site live request apart peer inQ outQ =>
    exact { h.put (m := m) (fun d k hk => (hq.client d k hk).2.1) (by simp [peer])
      (fun c hc => outQ c hc.2) with }
  | @shut c inQ outQ =>
    refine ⟨fun d k hk => h.answered d k ⟨?_, hk.2⟩, h.blamed⟩
    have hdc : d ≠ c := by
      rintro rfl
      simpa [outQ] using hk.2
    exact (Function.update_of_ne hdc _ _).symm.trans hk.1
  | _ => exact { h with }

end Answered

/-- **Only requests that are done are in error.** -/
def Faults (b : Ledger) : Prop := ∀ m, b.fault m = true → b.done m = true

theorem Faults.move (h : Faults b) (hmove : Move mode hold b b') : Faults b' := by
  cases hmove with
  | idle bare fault awake keeps waits stays ended => exact fun m hm => (ended m hm).elim (h m) id
  | @split c m n =>
    intro k hk
    have hids : k ∉ List.range' b.nextMsg n := by
      intro hmem
      simp only [Ledger.split, if_pos hmem] at hk
      cases hk
    simp only [Ledger.split, if_neg hids] at hk ⊢
    exact h k hk
  | listen | make | auth | select | unforwarded | fail | answer | swallowReply | lose | blame =>
    dsimp only [Faults, Ledger.take, Ledger.start, Ledger.link, Ledger.bump, Ledger.reply,
      Ledger.leave, Ledger.put, Ledger.free, Ledger.untime, Ledger.unlink, Ledger.time] at *
    grind only [Function.update_apply]
  | _ => exact h

/-! ### Notes -/

/-- **What a note says**, by the place of the call. -/
structure PutNote.Ok (x : PutNote) : Prop where
  quiet : x.site ∉ [.discarded, .fragment, .finished] → x.peer = none
  finished : x.site = .finished → x.peer ≠ none ∧ x.times.sendClient = x.now
  fragment : x.site = .fragment → x.fragId ≠ 0 ∧ x.fragOwner ≠ some x.id
  discarded : x.site = .discarded → x.peer = none → x.fault = true
  ownerless : x.ownerless = true → x.fault = true

/-- The journal of the ledger. -/
def Journal (b : Ledger) : Prop := ∀ x ∈ b.puts, x.Ok

/-- A request that no server has answered. -/
theorem PutNote.Ok.of_none (site : PutSite) (now : ℕ) (peer : b.peer m = none)
    (away : site ∉ [.discarded, .fragment, .finished]) : (b.call site now m).Ok where
  quiet := fun _ => peer
  finished := fun h => absurd (h : site = _) (by rintro rfl; simp at away)
  fragment := fun h => absurd (h : site = _) (by rintro rfl; simp at away)
  discarded := fun h => absurd (h : site = _) (by rintro rfl; simp at away)
  ownerless := fun h => by simp [Ledger.call, peer] at h

/-- A request whose response belongs to no connection is in error. -/
theorem Answered.fault_of_ownerless (h : Answered b) (hq : Queues b) (queued : b.InClient c m)
    (hb : (b.peer m).any (fun r => (b.owner r).isNone) = true) : b.fault m = true := by
  obtain ⟨hlive, hreq, -⟩ := hq.client c m queued
  cases hp : b.peer m with
  | none => simp [hp] at hb
  | some r =>
    rw [hp, Option.any_some, Option.isNone_iff_eq_none] at hb
    exact h.blamed m r hlive hreq hp hb

theorem Journal.move (h : Journal b) (ha : Answered b) (hq : Queues b)
    (hmove : Move mode hold b b') : Journal b' := by
  have happend : ∀ {x : PutNote}, x.Ok → ∀ y ∈ b.puts ++ [x], y.Ok := by
    intro x hx y hy
    rcases List.mem_append.1 hy with hy | hy
    · exact h y hy
    · exact List.mem_singleton.1 hy ▸ hx
  cases hmove with
  | @drop s m queued =>
    exact happend (.of_none _ _ (hq.server s m queued).2.2.2 (by simp))
  | @swallowReply s m rest bare times kind closing mute first =>
    exact happend (.of_none _ _ (hq.server s m ⟨kind, .inr (by simp [first])⟩).2.2.2 (by simp))
  | @finish c m r queued peer =>
    refine happend ⟨by simp [Ledger.call], fun _ => ⟨by simp [Ledger.call, peer], rfl⟩,
      by simp [Ledger.call], by simp [Ledger.call], ha.fault_of_ownerless hq queued⟩
  | @fragment c m queued done owner part =>
    exact happend ⟨by simp [Ledger.call], by simp [Ledger.call], fun _ => ⟨part, owner⟩,
      by simp [Ledger.call], ha.fault_of_ownerless hq queued⟩
  | @discard c m queued done =>
    refine happend ⟨by simp [Ledger.call], by simp [Ledger.call], by simp [Ledger.call],
      fun _ hp => (ha.answered c m queued done).resolve_right (absurd hp),
        ha.fault_of_ownerless hq queued⟩
  | @put m site live request apart peer inQ outQ away => exact happend (.of_none _ _ peer away)
  | _ => exact h

/-! ### Times -/

/-- **The times of requests.** -/
structure Clock (mode : Mode) (b : Ledger) : Prop where
  started : ∀ m, m < b.nextMsg → b.request m = true → b.startTs m ≠ 0
  sent : ∀ s, ∀ m ∈ b.sentTo s, m < b.nextMsg ∧ (b.times m).sendServer ≠ 0
  stamped : mode.single → ∀ c, ∀ m ∈ b.arrived c, b.fragOwner m = none →
    (b.times m).recvClient = b.arrival m
  given : ∀ x ∈ b.puts, b.freed x.id = true ∧ x.id < b.nextMsg ∧ x.startTs ≠ 0
  arrived : ∀ x ∈ b.puts, x.site = .finished → ∃ c, x.id ∈ b.arrived c
  recv : mode.single → ∀ x ∈ b.puts, x.site = .finished → x.fragOwner = none →
    x.times.recvClient = b.arrival x.id
  sentPut : ∀ x ∈ b.puts, ∀ s, x.id ∈ b.sentTo s → x.times.sendServer ≠ 0

namespace Clock

/-- A message is taken. -/
theorem take (h : Clock mode b) (hb : Blank b) (request : Bool) (owner : Option ℕ)
    (swallow bare : Bool) {t : ℕ} (times : Times) (ht : request = true → t ≠ 0) :
    Clock mode ((b.take request owner swallow bare).start b.nextMsg t times) := by
  have harrived := hb.arrived
  obtain ⟨h1, h2, h3, h4, h5, h6, h7⟩ := h
  refine ⟨?_, ?_, ?_, ?_, h5, h6, h7⟩ <;> dsimp only [Ledger.take, Ledger.start] at *
  all_goals grind only [Function.update_apply]

/-- A timestamp is taken that neither the stamp of the read nor the first write depends on. -/
theorem setTimes (h : Clock mode b) (m : ℕ) {t : Times} (server : (b.times m).sendServer ≠ 0 →
      t.sendServer ≠ 0) (recv : t.recvClient = (b.times m).recvClient) :
    Clock mode { b with times := update b.times m t } := by
  obtain ⟨h1, h2, h3, h4, h5, h6, h7⟩ := h
  refine ⟨h1, ?_, ?_, h4, h5, h6, h7⟩ <;> dsimp only at *
  all_goals grind only [Function.update_apply]

theorem unlink (h : Clock mode b) (m : ℕ) : Clock mode (b.unlink m) := by
  refine { h with given := fun x hx => ?_ }
  obtain ⟨h1, h2⟩ := h.given x hx
  exact ⟨by simp [Ledger.unlink, h1], h2⟩

theorem free (h : Clock mode b) (m : ℕ) : Clock mode (b.free m) := by
  refine { h with given := fun x hx => ?_ }
  obtain ⟨h1, h2⟩ := h.given x hx
  refine ⟨?_, h2⟩
  dsimp only [Ledger.free]
  grind only [Function.update_apply]

/-- A request is given back, with a note of it. -/
theorem put (h : Clock mode b) (live : b.Live m) (request : b.request m = true)
    {x : PutNote} (id : x.id = m) (startTs : x.startTs = b.startTs m)
    (server : x.times.sendServer = (b.times m).sendServer)
    (finished : x.site = .finished → (∃ c, m ∈ b.arrived c) ∧
      (mode.single → x.fragOwner = none → x.times.recvClient = b.arrival m)) :
    Clock mode { b.put m with puts := b.puts ++ [x] } := by
  have hput : Clock mode (b.put m) := { (h.unlink m).free m with }
  have hself : (b.put m).freed m = true := Function.update_self ..
  refine ⟨h.started, h.sent, h.stamped, ?_, ?_, ?_, ?_⟩
  all_goals dsimp only
  · intro y hy
    rcases List.mem_append.1 hy with hy | hy
    · exact hput.given y hy
    · rw [List.mem_singleton.1 hy, id, startTs]
      exact ⟨hself, live.1, h.started m live.1 request⟩
  · intro y hy hs
    rcases List.mem_append.1 hy with hy | hy
    · exact h.arrived y hy hs
    · rw [List.mem_singleton.1 hy] at hs ⊢
      rw [id]
      exact (finished hs).1
  · intro hsingle y hy hs ho
    rcases List.mem_append.1 hy with hy | hy
    · exact h.recv hsingle y hy hs ho
    · rw [List.mem_singleton.1 hy] at hs ho ⊢
      rw [id]
      exact (finished hs).2 hsingle ho
  · intro y hy s hs
    rcases List.mem_append.1 hy with hy | hy
    · exact h.sentPut y hy s hs
    · rw [List.mem_singleton.1 hy, server]
      rw [List.mem_singleton.1 hy, id] at hs
      exact (h.sent s m hs).2

theorem move (h : Clock mode b) (hq : Queues b) (hw : Waiting hold b) (hb : Blank b)
    (ho : Order b) (hnow : mode.now ≠ 0) (hmove : Move mode hold b b') :
    Clock mode b' := by
  cases hmove with
  | @listen c times => exact { h.take hb true (some c) false true times fun _ => hnow with }
  | @stamp c m reading =>
    obtain ⟨hloose, -, harr, -⟩ := hw.reading c m reading
    refine { h with sent := fun s k hk => ?_, stamped := fun hs d k hk hf => ?_ }
    · obtain ⟨h1, h2⟩ := h.sent s k hk
      refine ⟨h1, ?_⟩
      dsimp only
      by_cases hkm : k = m
      · subst hkm
        rwa [Function.update_self]
      · rwa [Function.update_of_ne hkm]
    · have hkm : k ≠ m := by
        rintro rfl
        exact harr d hk
      dsimp only
      rw [Function.update_of_ne hkm]
      exact h.stamped hs d k hk hf
  | @parse c m noreply bare reading =>
    obtain ⟨hloose, -, harr, -⟩ := hw.reading c m reading
    refine { h with stamped := fun hs d k hk hf => ?_, recv := fun hs x hx hsite hf => ?_ }
    · have hkm : k ≠ m := by
        rintro rfl
        exact harr d hk
      exact (h.stamped hs d k hk hf).trans (Function.update_of_ne hkm _ _).symm
    · have hkm : x.id ≠ m := by
        rintro rfl
        obtain ⟨d, hd⟩ := h.arrived x hx hsite
        exact harr d hd
      exact (h.recv hs x hx hsite hf).trans (Function.update_of_ne hkm _ _).symm
  | @arrive c m live apart new single =>
    have hmem : ∀ {d k}, k ∈ update b.arrived c (b.arrived c ++ [m]) d → k ∈ b.arrived d ∨
      k = m := by
      intro d k hk
      grind only [Function.update_apply, List.mem_append, List.mem_singleton]
    have hmem' : ∀ {d k}, k ∈ b.arrived d → k ∈ update b.arrived c (b.arrived c ++ [m]) d := by
      intro d k hk
      grind only [Function.update_apply, List.mem_append, List.mem_singleton]
    refine { h with stamped := fun hs d k hk hf => ?_, arrived := fun x hx hs => ?_ }
    · rcases hmem hk with hk | rfl
      · exact h.stamped hs d k hk hf
      · exact single hs hf
    · obtain ⟨d, hd⟩ := h.arrived x hx hs
      exact ⟨d, hmem' hd⟩
  | @split c m n =>
    have hids : ∀ {k}, k < b.nextMsg → k ∉ List.range' b.nextMsg n := by
      intro k hk
      rw [List.mem_range'_1]
      omega
    refine { h with started := ?_, sent := ?_, stamped := ?_, given := ?_ }
    · intro k hk hreq
      dsimp only [Ledger.split] at hk hreq ⊢
      by_cases hmem : k ∈ List.range' b.nextMsg n
      · rw [if_pos hmem]
        exact hnow
      · rw [if_neg hmem] at hreq ⊢
        refine h.started k ?_ hreq
        rw [List.mem_range'_1] at hmem
        omega
    · intro s k hk
      obtain ⟨h1, h2⟩ := h.sent s k hk
      refine ⟨Nat.lt_add_right n h1, ?_⟩
      simpa only [if_neg (hids h1)] using h2
    · intro hs d k hk hf
      have hlt := hb.arrived d k hk
      have hkm : k ≠ m := by
        rintro rfl
        simp [Ledger.split] at hf
      simp only [Ledger.split, Function.update_of_ne hkm, if_neg (hids hlt)] at hf
      refine Eq.trans ?_ (h.stamped hs d k hk hf)
      simp only [if_neg (hids hlt)]
    · intro x hx
      obtain ⟨h1, h2, h3⟩ := h.given x hx
      exact ⟨h1, Nat.lt_add_right n h2, h3⟩
  | @make c m times =>
    have h1 := h.take hb false (some c) false true times (t := mode.now) fun _ => hnow
    exact { h1 with }
  | @auth s c key bare times =>
    have h1 := h.take hb true (some c) true bare times (t := mode.now) fun _ => hnow
    exact { h1 with }
  | @select s key bare times =>
    have h1 := h.take hb true none true bare times (t := mode.now) fun _ => hnow
    exact { h1 with }
  | @sent s m rest kind closing connecting first =>
    obtain ⟨hlive, -⟩ := hq.server s m ⟨kind, .inl (by simp [first])⟩
    have h1 := h.setTimes m (t := { b.times m with sendServer := mode.now }) (fun _ => hnow) rfl
    have hmem : ∀ {t k}, k ∈ update b.sentTo s (b.sentTo s ++ [m]) t → k ∈ b.sentTo t ∨ k = m := by
      intro t k hk
      grind only [Function.update_apply, List.mem_append, List.mem_singleton]
    refine { h1 with sent := fun t k hk => ?_, sentPut := fun x hx t ht => ?_ }
    · rcases hmem hk with hk | rfl
      · exact h1.sent t k hk
      · exact ⟨hlive.1, by simpa using hnow⟩
    · rcases hmem ht with ht | hid
      · exact h.sentPut x hx t ht
      · -- a request in a queue was not given back
        have := (h.given x hx).1
        simp [hid, hlive.2] at this
  | @drop s m queued =>
    obtain ⟨hlive, hreq, -⟩ := hq.server s m queued
    exact { h.put (x := (b.leave s m).call .dropped mode.now m) hlive hreq rfl rfl rfl
      (by simp [Ledger.call]) with }
  | @answer s m rest bare times =>
    have h1 := h.take hb false (some s) false bare times (t := mode.now) fun _ => hnow
    exact { h1 with }
  | @swallowReply s m rest bare times kind closing mute first =>
    obtain ⟨hlive, hreq, -, hpeer⟩ := hq.server s m ⟨kind, .inr (by simp [first])⟩
    have hne : m ≠ b.nextMsg := hlive.1.ne
    have h1 := (h.take hb false (some s) false bare times (t := mode.now) fun _ => hnow).free
      b.nextMsg
    have h2 := h1.put (m := m) (x := b.call .swallowed mode.now m)
      ⟨Nat.lt_succ_of_lt hlive.1, (Function.update_of_ne hne _ _).trans hlive.2⟩
      ((Function.update_of_ne hne _ _).trans hreq) rfl
      (Function.update_of_ne hne _ _).symm
      (congrArg Times.sendServer (Function.update_of_ne hne _ _)).symm (by simp [Ledger.call])
    exact { h2 with }
  | @lose s bare mute times =>
    have h1 := (h.take hb false (some s) false bare times (t := mode.now) fun _ => hnow).free
      b.nextMsg
    exact { h1 with }
  | @unlink c m => exact h.unlink m
  | @blame c m queued done peer fault bare times =>
    have h1 := h.take hb false none false bare times (t := 0) (by simp)
    exact { h1 with }
  | @finish c m r queued =>
    obtain ⟨hlive, hreq, -⟩ := hq.client c m queued
    have hin : m ∈ b.arrived c := by
      refine (ho.sublist c).subset (List.mem_append_right _ ?_)
      rw [Ledger.pending, if_pos queued.1]
      exact queued.2
    have h1 := h.setTimes m (t := { b.times m with sendClient := mode.now }) id rfl
    have h2 := h1.put (m := m) (x := { b.call .finished mode.now m with
      times := { b.times m with sendClient := mode.now } }) hlive hreq rfl rfl
      (congrArg Times.sendServer (Function.update_self ..)).symm
      fun _ => ⟨⟨c, hin⟩, fun hs hf => h.stamped hs c m hin hf⟩
    exact { h2 with }
  | @fragment c m queued =>
    obtain ⟨hlive, hreq, -⟩ := hq.client c m queued
    exact { h.put (x := b.call .fragment mode.now m) hlive hreq rfl rfl rfl
      (by simp [Ledger.call]) with }
  | @discard c m queued =>
    obtain ⟨hlive, hreq, -⟩ := hq.client c m queued
    exact { h.put (x := b.call .discarded mode.now m) hlive hreq rfl rfl rfl
      (by simp [Ledger.call]) with }
  | @put m site live request apart peer inQ outQ away =>
    refine { h.put (x := b.call site mode.now m) live request rfl rfl rfl fun hs => ?_ with }
    have hsite : site = .finished := hs
    simp [hsite] at away
  | _ => exact { h with }

end Clock

end CacheProxy
