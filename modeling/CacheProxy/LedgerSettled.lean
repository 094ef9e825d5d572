/-
**Nothing is left half done.**

When control returns to the event loop no connection is half closed, none is in the middle of
sending, and a client whose first request is done waits for its socket.  A handler breaks this for
the connections it works on, which are *busy*, and repairs it.

Main results:

* `Settled.move` — a move breaks it for busy connections only.
-/

import CacheProxy.LedgerGroups

namespace CacheProxy

open Function (update)
open Ledger

/-- **The connections that are not busy are settled.** -/
structure Settled (mode : Mode) (b : Ledger) : Prop where
  opened : ∀ c, b.closing c = true ∨ b.mute c = true → b.kind c = .closed ∨ mode.leaving c
  smsg : ∀ c, b.smsg c ≠ none → mode.sending c
  awake : ∀ c, b.kind c = .client → b.Ready c → b.awake c = true ∨ mode.busy c

variable {mode : Mode} {hold : ℕ → Prop} {b b' : Ledger} {c m : ℕ}

/-- Whether a client is ready depends on the requests in its queue. -/
theorem Ledger.Ready.congr (h : b'.Ready c) (out : b'.outQ c = b.outQ c)
    (same : ∀ k ∈ b.outQ c, b'.fragId k = b.fragId k ∧ b'.nfrag k = b.nfrag k ∧
      b'.nfragDone k = b.nfragDone k ∧ b'.done k = b.done k ∧ b'.fdone k = b.fdone k) :
    b.Ready c := by
  obtain ⟨m, rest, hm, hd, hf⟩ := h
  rw [out] at hm hf
  have hmem : m ∈ b.outQ c := by simp [hm]
  obtain ⟨h1, h2, h3, h4, h5⟩ := same m hmem
  refine ⟨m, rest, hm, h4 ▸ hd, ?_⟩
  rw [h1, h2, h3, h5] at hf
  refine hf.imp_right (Or.imp_right (And.imp_right fun hk k hmk hid => ?_))
  obtain ⟨g1, -, -, g4, -⟩ := same k hmk
  exact g4 ▸ hk k hmk (g1.trans hid)

namespace Settled

/-- A move that changes no field `Settled` speaks of, apart from the queues of clients. -/
theorem of_ready (h : Settled mode b) (kind : ∀ c, b'.kind c = b.kind c)
    (closing : b'.closing = b.closing) (mute : b'.mute = b.mute) (smsg : b'.smsg = b.smsg)
    (awake : b'.awake = b.awake)
    (ready : ∀ c, b.kind c = .client → ¬ mode.busy c → b'.Ready c → b.Ready c) :
    Settled mode b' where
  opened := fun c hc => by
    rw [closing, mute] at hc
    rw [kind]
    exact h.opened c hc
  smsg := fun c hc => h.smsg c (smsg ▸ hc)
  awake := fun c hk hr => by
    rw [kind] at hk
    by_cases hb : mode.busy c
    · exact .inr hb
    · rw [awake]
      exact h.awake c hk (ready c hk hb hr)

/-- A message is taken. -/
theorem take (h : Settled mode b) (hq : Queues b) (request : Bool) (owner : Option ℕ)
    (swallow bare : Bool) : Settled mode (b.take request owner swallow bare) := by
  refine h.of_ready (fun _ => rfl) rfl rfl rfl rfl fun c hk _ hr => hr.congr rfl fun k hmem => ?_
  have hne : k ≠ b.nextMsg := (hq.client c k ⟨hk, hmem⟩).1.1.ne
  exact ⟨Function.update_of_ne hne _ _, Function.update_of_ne hne _ _,
    Function.update_of_ne hne _ _, Function.update_of_ne hne _ _, Function.update_of_ne hne _ _⟩

/-- The queues of a server change. -/
theorem setServer (h : Settled mode b) {s : ℕ} (kind : b.kind s = .server) (q q' : List ℕ) :
    Settled mode { b with inQ := update b.inQ s q, outQ := update b.outQ s q' } := by
  refine h.of_ready (fun _ => rfl) rfl rfl rfl rfl fun c hk _ hr => hr.congr ?_ fun k hmem =>
    ⟨rfl, rfl, rfl, rfl, rfl⟩
  refine Function.update_of_ne ?_ _ _
  rintro rfl
  simp [hk] at kind

/-- A request is done whose client is busy, or that is in no queue of a client. -/
theorem setDone (h : Settled mode b) (v : Bool) (busy : ∀ c, b.InClient c m → mode.busy c) :
    Settled mode { b with done := update b.done m v } := by
  refine h.of_ready (fun _ => rfl) rfl rfl rfl rfl fun c hk hb hr => hr.congr rfl fun k hmem => ?_
  refine ⟨rfl, rfl, rfl, Function.update_of_ne ?_ _ _, rfl⟩
  rintro rfl
  exact hb (busy c ⟨hk, hmem⟩)

/-- The fragments of a request are counted whose client is busy. -/
theorem bump (h : Settled mode b) (hq : Queues b) (hg : Groups b)
    (busy : ∀ c, b.owner m = some c → mode.busy c) : Settled mode (b.bump m) := by
  refine h.of_ready (fun _ => rfl) rfl rfl rfl rfl fun c hk hb hr => hr.congr rfl fun k hmem => ?_
  refine ⟨rfl, rfl, if_neg fun ho => ?_, rfl, rfl⟩
  have hown := (hg.owner m k ho).2.2.1
  rw [(hq.client c k ⟨hk, hmem⟩).2.2.1] at hown
  exact hb (busy c hown.symm)

/-- A request leaves the queue of a busy client. -/
theorem retire (h : Settled mode b) (busy : mode.busy c) : Settled mode (b.retire c m) := by
  refine h.of_ready (fun _ => rfl) rfl rfl rfl rfl fun d hk hb hr => hr.congr ?_ fun k hmem =>
    ⟨rfl, rfl, rfl, rfl, rfl⟩
  refine Function.update_of_ne ?_ _ _
  rintro rfl
  exact hb busy

/-- A request that is not done, or whose fragments are not, comes to the end of a queue. -/
theorem enqueue (h : Settled mode b) (late : b.kind c = .client → ¬ mode.busy c →
      b.done m = false ∨ b.fragId m ≠ 0 ∧ b.fdone m = false ∧ b.nfragDone m < b.nfrag m) :
    Settled mode { b with outQ := update b.outQ c (b.outQ c ++ [m]) } := by
  refine h.of_ready (fun _ => rfl) rfl rfl rfl rfl fun d hk hb hr => ?_
  by_cases hd : d = c
  · subst hd
    obtain ⟨k, rest, hout, hdone, hf⟩ := hr
    dsimp only at hout hdone hf
    rw [Function.update_self] at hout hf
    cases hq : b.outQ d with
    | nil =>
      -- the new request is the first one
      rw [hq] at hout
      obtain rfl : m = k := by simpa using (List.cons.inj hout).1
      rcases late hk hb with hl | ⟨h1, h2, h3⟩
      · simp [hdone] at hl
      · simp [h1, h2] at hf
        omega
    | cons x xs =>
      rw [hq] at hout hf
      obtain rfl : x = k := by simpa using (List.cons.inj hout).1
      refine ⟨x, xs, hq, hdone, hf.imp_right (Or.imp_right (And.imp_right fun hk' j hj => ?_))⟩
      rw [hq] at hj
      exact hk' j (List.mem_append_left _ hj)
  · exact hr.congr (Function.update_of_ne hd _ _) fun k _ => ⟨rfl, rfl, rfl, rfl, rfl⟩

theorem split (h : Settled mode b) (hq : Queues b) (loose : b.Loose m) (n : ℕ)
    (bare : ℕ → Bool) : Settled mode (b.split c m n bare) := by
  refine h.of_ready (fun _ => rfl) rfl rfl rfl rfl fun d hk _ hr => hr.congr rfl fun k hmem => ?_
  have hlt : k < b.nextMsg := (hq.client d k ⟨hk, hmem⟩).1.1
  have hids : k ∉ List.range' b.nextMsg n := by
    rw [List.mem_range'_1]
    omega
  have hne : k ≠ m := by
    rintro rfl
    exact loose.2 d hmem
  simp only [Ledger.split, if_neg hids, Function.update_of_ne hne, true_and]

theorem move (h : Settled mode b) (hq : Queues b) (hg : Groups b)
    (hmove : Move mode hold b b') : Settled mode b' := by
  -- a request of a server is in the queue of a client only if it is its own
  have howner : ∀ {d k : ℕ}, (∀ c, b.owner k = some c → mode.busy c) → b.InClient d k →
      mode.busy d := fun hb hd => hb _ (hq.client _ _ hd).2.2.1
  cases hmove with
  | idle bare fault awake keeps waits stays ended wakes =>
    exact { h with awake := fun c hk hr => (h.awake c hk hr).imp_left (wakes c hk) }
  | @connect c kind connecting awake unused =>
    have hout := hq.outEmpty c (by simp [unused]) (by simp [unused])
    refine ⟨fun d hd => ?_, h.smsg, fun d hk hr => ?_⟩
    · have := h.opened d hd
      dsimp only
      grind only [Function.update_apply]
    · have hdc : d ≠ c := by
        rintro rfl
        obtain ⟨m, rest, hm, -⟩ := hr
        simp [hout] at hm
      dsimp only at hk ⊢
      rw [Function.update_of_ne hdc] at hk ⊢
      exact h.awake d hk hr
  | @listen c => exact { h.take hq true (some c) false true with }
  | @split c m n bare times seq loose => exact { h.split (c := c) hq loose n bare with }
  | @queue c m joins => exact h.enqueue fun _ _ => .inl joins.loose.1.done
  | @make c m times joins group busy =>
    have hne : m ≠ b.nextMsg := joins.loose.1.live.1.ne
    have h1 := (h.take hq false (some c) false true).setDone (m := m) true fun d hd =>
      absurd hd.2 (joins.loose.2 d)
    have h2 := h1.enqueue (c := c) (m := m) fun _ hb => .inr ?_
    · exact { h2 with }
    · obtain ⟨h3, h4⟩ := busy.resolve_left hb
      dsimp only [Ledger.take]
      simp only [Function.update_of_ne hne]
      exact ⟨h3, joins.loose.1.fdone, h4⟩
  | @auth s c key bare =>
    exact { h.take hq true (some c) true bare with }
  | @select s key bare =>
    exact { h.take hq true none true bare with }
  | @pick c smsg =>
    refine { h with smsg := fun d hd => ?_ }
    have := h.smsg d
    dsimp only at hd
    grind only [Function.update_apply]
  | @rest c awake =>
    refine { h with awake := fun d hk hr => ?_ }
    have := h.awake d hk hr
    dsimp only
    grind only [Function.update_apply]
  | @sent s m rest kind =>
    cases hn : b.noreply m
    · exact { h.setServer kind rest (b.outQ s ++ [m]) with }
    · exact { h with }
  | @skip s m kind =>
    cases hn : b.noreply m
    · exact { h.setServer kind ((b.inQ s).erase m) (b.outQ s ++ [m]) with }
    · exact { h with }
  | @unforwarded m unsent apart owner busy =>
    exact { h.setDone true busy with }
  | @fail s m queued closing swallow noreply calm busy =>
    have h1 := (h.setServer queued.1 ((b.inQ s).erase m) ((b.outQ s).erase m)).setDone (m := m)
      true fun d hd => ?_
    · have hq1 : Queues { b.leave s m with done := update b.done m true } :=
        { (hq.leave m queued.1).setDone true (hq.settled_leave queued) with }
      have h2 : Settled mode { b.leave s m with done := update b.done m true } := { h1 with }
      exact { h2.bump hq1 { hg with } busy with }
    · exact howner busy ((Queues.inClient_leave queued.1 m d m).1 hd)
  | @drop s m queued =>
    exact { h.setServer queued.1 ((b.inQ s).erase m) ((b.outQ s).erase m) with }
  | @answer s m rest bare times kind closing mute first swallow calm busy =>
    have hs : b.InServer s m := ⟨kind, .inr (by simp [first])⟩
    have hne : m ≠ b.nextMsg := (hq.server s m hs).1.1.ne
    have hq1 := hq.take false (some s) false bare
    have h1 := ((h.take hq false (some s) false bare).setServer kind ((b.inQ s).erase m)
      ((b.outQ s).erase m)).setDone (m := m) true fun d hd => ?_
    · have hq2 : Queues { (b.take false (some s) false bare).leave s m with
          done := update (update b.done b.nextMsg false) m true } :=
        { (hq1.leave m kind).setDone true (hq1.settled_leave hs) with }
      have h2 : Settled mode { (b.take false (some s) false bare).leave s m with
          done := update (update b.done b.nextMsg false) m true } := { h1 with }
      have h3 := h2.bump hq2 (m := m) { hg.take false (some s) false bare with } fun d hd =>
        busy d ((Function.update_of_ne hne _ _).symm.trans hd)
      exact { h3 with }
    · exact howner busy ((Queues.inClient_leave (b := b) kind m d m).1 hd)
  | @swallowReply s m rest bare times kind closing mute first swallow =>
    have h1 := ((h.take hq false (some s) false bare).setServer kind ((b.inQ s).erase m)
      ((b.outQ s).erase m)).setDone (m := m) true fun d hd => ?_
    · exact { h1 with }
    · have hd' : b.InClient d m := (Queues.inClient_leave (b := b) kind m d m).1 hd
      simp [(hq.client d m hd').2.2.2] at swallow
  | @lose s bare mute times kind ample leaving =>
    have h1 := h.take hq false (some s) false bare
    refine { h1 with opened := fun d hd => ?_ }
    rcases hd with hd | hd
    · exact h.opened d (.inl hd)
    · dsimp only at hd
      by_cases hds : d = s
      · subst hds
        rw [Function.update_self, Bool.or_eq_true] at hd
        rcases hd with hd | hd
        · exact h.opened d (.inr hd)
        · exact .inr (leaving hd)
      · rw [Function.update_of_ne hds] at hd
        exact h.opened d (.inr hd)
  | @mark c m queued =>
    refine h.of_ready (fun _ => rfl) rfl rfl rfl rfl fun d hk hb hr => hr.congr rfl fun k hmem => ?_
    refine ⟨rfl, rfl, rfl, rfl, if_neg fun hkm => hb ?_⟩
    have hkc : k ∈ b.outQ c := by
      rcases List.mem_cons.1 hkm with rfl | hkm
      · exact queued.2
      · exact mem_of_mem_around hkm
    have hc := (hq.client c k ⟨queued.1, hkc⟩).2.2.1
    have hd := (hq.client d k ⟨hk, hmem⟩).2.2.1
    rwa [Option.some.inj (hd.symm.trans hc)]
  | @blame c m queued done peer fault bare => exact { h.take hq false none false bare with }
  | @finish c m r queued peer done first busy => exact { h.retire (m := m) busy with }
  | @fragment c m queued done owner part busy => exact { h.retire (m := m) busy with }
  | @discard c m queued done closing busy => exact { h.retire (m := m) busy with }
  | @swallow c m queued done free closing busy => exact { h.retire (m := m) busy with }
  | closing =>
    refine { h with opened := fun d hd => ?_ }
    have := h.opened d
    dsimp only at hd ⊢
    grind only [Function.update_apply]
  | @shut c =>
    refine { h with opened := fun d hd => ?_, awake := fun d hk hr => ?_ }
    · have := h.opened d hd
      dsimp only
      grind only [Function.update_apply]
    · dsimp only at hk
      have : d ≠ c := by
        rintro rfl
        simp at hk
      rw [Function.update_of_ne this] at hk
      exact h.awake d hk hr
  | _ => exact { h with }

end Settled

end CacheProxy
