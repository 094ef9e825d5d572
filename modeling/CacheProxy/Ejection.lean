/-
**Ejected servers come back.**

A server that fails too often is ejected: it may not be tried before `next_retry`, and the ring is
rebuilt without it.  It comes back with a later rebuild, and the only thing that asks for one is
`next_rebuild`.  In between `server_ok` may clear `next_retry` of a server that is out of the ring,
the server may fail again, and when no server is left the old ring stays.  What carries the argument
is that an ejection is always followed by a rebuild at once: so whatever is out of the ring was
ejected before the last rebuild, and was counted there for `next_rebuild`.

Main definitions:

* `PoolEvent`, `ServerPool.events` — what happens to a pool after it was set up;
* `Configured`, `Stocked` — what a rebuild needs to know; `Scheduled` — what it leaves behind.

Main results:

* `Configured.scheduled`, `Scheduled.event` — a rebuild, and every event;
* `ejected_scheduled` — **every ejected server is scheduled to come back**.
-/

import CacheProxy.ServerPool

namespace CacheProxy

/-! ### Events -/

/-- What happens to the servers of a pool, with the readings of the clock. -/
inductive PoolEvent where
  | failure (i : ℕ) (now : ℤ) (sys : Sys)
  | ok (i : ℕ)
  | update (now : ℤ) (sys : Sys)

/-- The readings of the clock. -/
def PoolEvent.clock : PoolEvent → List ℤ
  | failure _ now sys => [now, sys.now]
  | ok _ => []
  | update now sys => [now, sys.now]

def ServerPool.event (env : Hashing) (p : ServerPool) : PoolEvent → Option ServerPool
  | .failure i now sys => serverFailure env p i now sys
  | .ok i => some (serverOk p i)
  | .update now sys => (serverPoolUpdate env p now sys).map Prod.snd

def ServerPool.events (env : Hashing) (p : ServerPool) (es : List PoolEvent) : Option ServerPool :=
  es.foldlM (ServerPool.event env) p

/-- The server has no entry in the ring. -/
def Absent (p : ServerPool) (i : ℕ) : Prop := ∀ e, some e ∈ p.continuum.take p.ncontinuum →
    e.index ≠ i

/-! ### What is known of a pool -/

/-- The server is not waiting, or waits from its last ejection on. -/
def Backoff (timeout : ℤ) (s : PoolServer) : Prop :=
  s.nextRetry ≠ 0 → ∃ t, s.ejectedAt = some t ∧ s.nextRetry = t + timeout

/-- What holds of the servers: who waits was ejected. -/
structure Configured (timeout : ℤ) (p : ServerPool) : Prop where
  distType : p.distType ≠ .ketama
  eject : p.autoEjectHosts = true
  retryTimeout : p.serverRetryTimeout = timeout
  pos : ∀ s ∈ p.server, 0 < s.weight
  waiting : ∀ s ∈ p.server, Backoff timeout s

/-- **What a rebuild needs**: the array has room for all servers. -/
structure Stocked (timeout : ℤ) (p : ServerPool) : Prop extends Configured timeout p where
  sized : Sized p
  room : p.distType.size p.server ≤ p.nserverContinuum

/-- **What a rebuild leaves**: who is out of the ring is scheduled, and who is scheduled may be
tried by then. -/
structure Scheduled (timeout : ℤ) (p : ServerPool) : Prop extends Stocked timeout p where
  out : ∀ i s, p.server[i]? = some s → Absent p i ∨ p.nliveServer = 0 →
    p.nextRebuild ≠ 0 ∧ ∃ t, s.ejectedAt = some t ∧ p.nextRebuild ≤ t + timeout
  next : p.nextRebuild ≠ 0 → ∃ s ∈ p.server, s.nextRetry ≤ p.nextRebuild
  nonneg : 0 ≤ p.nextRebuild

section Servers

variable {timeout : ℤ} {p : ServerPool} {env : Hashing} {sys : Sys}

theorem Configured.copies_pos (h : Configured timeout p) {s : PoolServer} (hs : s ∈ p.server) :
    0 < p.distType.copies s := by
  cases hk : p.distType with
  | ketama => exact absurd hk h.distType
  | modula => exact h.pos s hs
  | random => exact Nat.one_pos

/-- A server is changed, but not its weight. -/
theorem Stocked.modify (h : Stocked timeout p) (i : ℕ) (f : PoolServer → PoolServer)
    (hweight : ∀ s, (f s).weight = s.weight) (hf : ∀ s, Backoff timeout s → Backoff timeout (f s)) :
    Stocked timeout { p with server := p.server.modify i f } := by
  have hweights : (p.server.modify i f).map PoolServer.weight = p.server.map PoolServer.weight := by
    refine List.ext_getElem? fun j => ?_
    simp only [List.getElem?_map, List.getElem?_modify]
    cases p.server[j]? with
    | none => simp
    | some => by_cases hij : i = j <;> simp [hij, hweight]
  have hmem (P : PoolServer → Prop) (hP : ∀ s, P s → P (f s)) (hall : ∀ s ∈ p.server, P s) :
      ∀ s ∈ p.server.modify i f, P s := by
    intro s hs
    obtain ⟨j, hj⟩ := List.mem_iff_getElem?.mp hs
    rw [List.getElem?_modify] at hj
    cases ht : p.server[j]? with
    | none => simp [ht] at hj
    | some t =>
      have htmem := List.mem_of_getElem? ht
      by_cases hij : i = j
      · simp only [ht, hij, if_true, Option.map_eq_map, Option.map_some, Option.some.injEq] at hj
        exact hj ▸ hP t (hall t htmem)
      · simp only [ht, hij, if_false, Option.map_eq_map, Option.map_some, Option.some.injEq] at hj
        exact hj ▸ hall t htmem
  exact
    { distType := h.distType
      eject := h.eject
      retryTimeout := h.retryTimeout
      sized := ⟨h.sized.length, h.sized.lt⟩
      room := (size_congr hweights).trans_le h.room
      pos := hmem (fun s => 0 < s.weight) (fun s hs => by rw [hweight]; exact hs) h.pos
      waiting := hmem (Backoff timeout) hf h.waiting }

theorem Backoff.settle {now : ℤ} {s : PoolServer} (h : Backoff timeout s) :
    Backoff timeout (settle true now s) := by
  unfold CacheProxy.settle
  split
  · exact fun hne => absurd rfl hne
  · exact h

/-- **After a rebuild** who is out of the ring is scheduled. -/
theorem Configured.scheduled {now : ℤ} {p' : ServerPool} (h : Configured timeout p) (hnow : 0 < now)
    (hr : Rebuilt p now p') (hroom : p.distType.size p.server ≤ p'.nserverContinuum) :
    Scheduled timeout p' := by
  have hearliest : Earliest now p.server p'.nextRebuild := by
    rw [hr.nextRebuild, h.eject]
    exact foldl_scan_rebuild hnow.le _
  have hserver : p'.server = p.server.map (settle true now) := by rw [hr.server, h.eject]
  have hweights : p'.server.map PoolServer.weight = p.server.map PoolServer.weight := by
    rw [hserver, List.map_map]
    exact List.map_congr_left fun s _ => settle_weight s
  constructor
  · refine ⟨⟨hr.distType ▸ h.distType, hr.autoEjectHosts.trans h.eject,
      hr.serverRetryTimeout.trans h.retryTimeout, ?_, ?_⟩, hr.sized, ?_⟩
    · rw [hserver]
      simp only [List.forall_mem_map, settle_weight]
      exact h.pos
    · rw [hserver]
      simp only [List.forall_mem_map]
      exact fun s hs => (h.waiting s hs).settle
    · rw [hr.distType, size_congr hweights]
      exact hroom
  · intro i s' hs' hout
    rw [hserver, List.getElem?_map] at hs'
    obtain ⟨s, hs, rfl⟩ := Option.map_eq_some_iff.mp hs'
    have hmem := List.mem_of_getElem? hs
    -- The server is dead: if it were live, some server would be, and it would have an entry.
    have hdead : now < s.nextRetry := by
      by_contra hle
      have hlive : IsLive p.autoEjectHosts now s = true := by simp [IsLive, not_lt.mp hle]
      have hcount : p'.nliveServer ≠ 0 := by
        rw [hr.nliveServer]
        exact (List.countP_pos_iff.mpr ⟨s, hmem, hlive⟩).ne'
      rcases hout with habsent | hzero
      · refine habsent ⟨i, 0⟩ ?_ rfl
        rw [(hr.live hcount).2]
        exact List.mem_map_of_mem (mem_ring_of_live hs hlive (h.copies_pos hmem))
      · exact hcount hzero
    obtain ⟨hne, hle⟩ := hearliest.le s hmem hdead
    obtain ⟨t, ht, heq⟩ := h.waiting s hmem (by omega)
    exact ⟨hne, t, by rw [settle_ejectedAt, ht], heq ▸ hle⟩
  · intro hne
    obtain ⟨s, hs, hlt, heq⟩ := hearliest.mem hne
    refine ⟨s, ?_, heq.le⟩
    rw [hserver]
    refine List.mem_map.mpr ⟨s, hs, ?_⟩
    rw [settle, if_neg (by rintro ⟨-, hle⟩; omega)]
  · by_cases hzero : p'.nextRebuild = 0
    · exact hzero.ge
    · obtain ⟨s, -, hlt, heq⟩ := hearliest.mem hzero
      omega

/-- A rebuild of a pool that has room. -/
theorem Stocked.run (env : Hashing) (h : Stocked timeout p) (hnow : 0 < sys.now) :
    ∃ p', serverPoolRun env p sys = some (.ok, p') ∧ Rebuilt p sys.now p' ∧
      Scheduled timeout p' := by
  obtain ⟨p', hrun, hr⟩ := serverPoolRun_rebuilt env h.distType h.sized hnow.le
    (.inl ((length_ring_le _).trans h.room))
  exact ⟨p', hrun, hr, h.scheduled hnow hr (h.room.trans hr.le)⟩

/-- A server is changed so that it may be tried no later than before, and was ejected when it
was. -/
theorem Scheduled.modify (h : Scheduled timeout p) (i : ℕ) (f : PoolServer → PoolServer)
    (hweight : ∀ s, (f s).weight = s.weight) (hejected : ∀ s, (f s).ejectedAt = s.ejectedAt)
    (hretry : ∀ s, (f s).nextRetry = s.nextRetry ∨ (f s).nextRetry = 0) :
    Scheduled timeout { p with server := p.server.modify i f } := by
  have hwaiting (s : PoolServer) (hs : Backoff timeout s) : Backoff timeout (f s) := by
    intro hne
    rcases hretry s with heq | heq
    · rw [hejected, heq]
      exact hs (heq ▸ hne)
    · exact absurd heq hne
  refine
    { toStocked := h.toStocked.modify i f hweight hwaiting, out := ?_, next := ?_,
      nonneg := h.nonneg }
  · intro j s hs hout
    simp only [List.getElem?_modify] at hs
    obtain ⟨s₀, hs₀, rfl⟩ := Option.map_eq_some_iff.mp hs
    obtain ⟨hne, t, ht, hle⟩ := h.out j s₀ hs₀ hout
    refine ⟨hne, t, ?_, hle⟩
    split
    · rw [hejected, ht]
    · exact ht
  · intro hne
    obtain ⟨s, hs, hle⟩ := h.next hne
    obtain ⟨j, hj⟩ := List.mem_iff_getElem?.mp hs
    refine ⟨if i = j then f s else s, List.mem_iff_getElem?.mpr ⟨j, ?_⟩, ?_⟩
    · rw [List.getElem?_modify, hj]
      split <;> simp [*]
    · split
      · rcases hretry s with heq | heq
        · rw [heq]
          exact hle
        · rw [heq]
          exact h.nonneg
      · exact hle

/-- **Every event keeps the schedule.** -/
theorem Scheduled.event (env : Hashing) (h : Scheduled timeout p) (e : PoolEvent)
    (hclock : ∀ t ∈ e.clock, 0 < t) : ∃ p', p.event env e = some p' ∧ Scheduled timeout p' := by
  cases e with
  | failure i now sys =>
    have hsys : 0 < sys.now := hclock _ (by simp [PoolEvent.clock])
    have hcount := h.modify i (fun s => { s with failureCount := (s.failureCount + 1) % 2 ^ 32 })
      (fun _ => rfl) (fun _ => rfl) fun _ => .inl rfl
    rw [ServerPool.event, serverFailure, if_neg (by simp [h.eject])]
    dsimp only
    split
    · exact ⟨_, rfl, hcount⟩
    · split
      · exact ⟨_, rfl, hcount⟩
      · split
        · exact ⟨_, rfl, hcount⟩
        · -- The server is ejected, and the ring rebuilt at once.
          have hejected := hcount.toStocked.modify i
            (fun s => { s with
              failureCount := 0, nextRetry := now + p.serverRetryTimeout, ejectedAt := some now })
            (fun _ => rfl) fun _ _ _ => ⟨now, rfl, by rw [h.retryTimeout]⟩
          obtain ⟨p', hrun, -, hsched⟩ := hejected.run env hsys
          exact ⟨p', by rw [hrun]; rfl, hsched⟩
  | ok i =>
    refine ⟨_, rfl, h.modify i _ (fun s => ?_) (fun s => ?_) fun s => ?_⟩
    · split <;> rfl
    · split <;> rfl
    · split
      · exact .inr rfl
      · exact .inl rfl
  | update now sys =>
    have hsys : 0 < sys.now := hclock _ (by simp [PoolEvent.clock])
    rw [ServerPool.event, serverPoolUpdate, if_neg (by simp [h.eject])]
    split
    · exact ⟨p, rfl, h⟩
    · split
      · exact ⟨p, rfl, h⟩
      · split
        · split <;> exact ⟨p, rfl, h⟩
        · obtain ⟨p', hrun, -, hsched⟩ := h.toStocked.run env hsys
          exact ⟨p', by rw [hrun]; rfl, hsched⟩

theorem Scheduled.events (env : Hashing) (es : List PoolEvent)
    (hclock : ∀ e ∈ es, ∀ t ∈ e.clock, 0 < t)
    (h : Scheduled timeout p) : ∃ p', p.events env es = some p' ∧ Scheduled timeout p' :=
  foldlM_keeps (Scheduled timeout) es (fun _ e hq he => hq.event env e (hclock e he)) h

end Servers

/-! ### Setting a pool up -/

section Init

variable {env : Hashing} {p₀ p₁ : ServerPool} {sys : Sys}

theorem needed_mod {d : DistType} (eject : Bool) {now : ℤ} (hd : d ≠ .ketama) (hnow : 0 ≤ now)
    (ss : List PoolServer) :
    d.needed (scanServers eject now ss) % 2 ^ 32 = (d.ring eject now ss).length % 2 ^ 32 := by
  obtain ⟨-, hlive, htotal⟩ := scan_eq eject hnow ss
  rw [length_ring]
  cases d with
  | ketama => exact absurd rfl hd
  | modula =>
    change (scanServers eject now ss).totalWeight % 2 ^ 32 = _
    rw [htotal, Nat.mod_mod]
    rfl
  | random =>
    change (scanServers eject now ss).nliveServer % 2 ^ 32 = _
    rw [hlive, List.countP_eq_length_filter]
    simp [DistType.size, DistType.copies]

/-- A first rebuild that succeeds did not count beyond 32 bits. -/
theorem Fresh.room (hf : Fresh p₀) (hd : p₀.distType ≠ .ketama) (hnow : 0 ≤ sys.now)
    (hpos : 0 < (p₀.distType.ring p₀.autoEjectHosts sys.now p₀.server).length)
    (hcount : 0 < p₀.server.countP (IsLive p₀.autoEjectHosts sys.now))
    (hrun : serverPoolRun env p₀ sys = some (.ok, p₁)) :
    sys.alloc = true ∧
      (p₀.distType.ring p₀.autoEjectHosts sys.now p₀.server).length + continuumAddition <
        2 ^ 32 := by
  obtain ⟨hserver, hlive, -⟩ := scan_eq p₀.autoEjectHosts hnow p₀.server
  have hmod := needed_mod p₀.autoEjectHosts hd hnow p₀.server
  have hring : p₀.distType.ring p₀.autoEjectHosts sys.now
    (p₀.server.map (settle p₀.autoEjectHosts sys.now)) =
      p₀.distType.ring p₀.autoEjectHosts sys.now p₀.server := ringOf_settle hnow 0 _
  rw [serverPoolRun, if_neg (not_lt.mpr hnow)] at hrun
  simp only [hserver, hlive, hcount.ne', if_false] at hrun
  split at hrun
  · split at hrun
    · next halloc =>
      refine ⟨halloc, ?_⟩
      by_contra hge
      have hpoints : p₀.distType.pointsPerServer = 1 := by
        cases hk : p₀.distType with
        | ketama => exact absurd hk hd
        | modula | random => rfl
      have hfit := le_of_rebuild hrun
        ⟨by simp only [length_ncRealloc, hpoints, Nat.mul_one, Nat.mod_mod],
          Nat.mod_lt _ (by norm_num)⟩ hd
      simp only [hring] at hfit
      rw [Nat.add_mod, hmod, ← Nat.add_mod] at hfit
      simp only [continuumAddition] at hfit hge
      omega
    · cases hrun
  · have hfit := le_of_rebuild hrun ⟨hf.roomy.sized.length, hf.roomy.sized.lt⟩ hd
    simp only [hring, hf.nserverContinuum] at hfit
    omega

/-- **A pool that was set up** has room for all its servers. -/
theorem Fresh.scheduled (hf : Fresh p₀) (hd : p₀.distType ≠ .ketama)
    (heject : p₀.autoEjectHosts = true)
    (hne : p₀.server ≠ []) (hpos : ∀ s ∈ p₀.server, 0 < s.weight)
    (hzero : ∀ s ∈ p₀.server, s.nextRetry = 0) (hnow : 0 < sys.now)
    (hrun : serverPoolRun env p₀ sys = some (.ok, p₁)) : Scheduled p₀.serverRetryTimeout p₁ := by
  have hlive (s : PoolServer) (hs : s ∈ p₀.server) : IsLive p₀.autoEjectHosts sys.now s = true := by
    simp [IsLive, hzero s hs, hnow.le]
  have hall : (p₀.distType.ring p₀.autoEjectHosts sys.now p₀.server).length =
    p₀.distType.size p₀.server := by
    rw [length_ring, List.filter_eq_self.mpr hlive]
  obtain ⟨s, hs⟩ := List.exists_mem_of_ne_nil _ hne
  obtain ⟨i, hi⟩ := List.mem_iff_getElem?.mp hs
  have hconf : Configured p₀.serverRetryTimeout p₀ :=
    ⟨hd, heject, rfl, hpos, fun s hs hne => absurd (hzero s hs) hne⟩
  have hroom := hf.room hd hnow.le
    (List.length_pos_of_mem (mem_ring_of_live hi (hlive s hs) (hconf.copies_pos hs)))
    (List.countP_pos_iff.mpr ⟨s, hs, hlive s hs⟩) hrun
  obtain ⟨q, hrun', hr⟩ := serverPoolRun_rebuilt env hd hf.roomy.sized hnow.le (.inr hroom)
  cases hrun'.symm.trans hrun
  -- The first ring lists all servers, so that the array has room for them from now on.
  have hlisted : p₀.distType.size p₀.server ≤ p₁.nserverContinuum := by
    have hcount : p₁.nliveServer ≠ 0 := by
      rw [hr.nliveServer]
      exact (List.countP_pos_iff.mpr ⟨s, hs, hlive s hs⟩).ne'
    have hlen := congrArg List.length (hr.live hcount).2
    rw [List.length_take, List.length_map, hall] at hlen
    rw [← hr.sized.length]
    omega
  exact hconf.scheduled hnow hr hlisted

end Init

/-- **Every ejected server is scheduled to come back.**  After a pool with the distribution modula
or random was set up, and after any events under a clock that never goes back: every server that has
no entry in the ring, and every server if none is live, has a rebuild ahead of it, at the latest
when the time for its last ejection is over.  The next `server_pool_update` after that time rebuilds
the ring; then a server is live, and every server that may be tried again is in the ring. -/
theorem ejected_scheduled (env : Hashing) {p₀ p₁ : ServerPool} (fresh : Fresh p₀)
    (distType : p₀.distType ≠ .ketama) (eject : p₀.autoEjectHosts = true)
    (nonempty : p₀.server ≠ [])
    (weights : ∀ s ∈ p₀.server, 0 < s.weight) (zero : ∀ s ∈ p₀.server, s.nextRetry = 0) {sys₀ : Sys}
    (positive : 0 < sys₀.now) (init : serverPoolRun env p₀ sys₀ = some (.ok, p₁))
    (es : List PoolEvent)
    (clock : (sys₀.now :: es.flatMap PoolEvent.clock).Pairwise (· ≤ ·)) :
    ∃ p, p₁.events env es = some p ∧
      (∀ i s, p.server[i]? = some s → Absent p i ∨ p.nliveServer = 0 →
        p.nextRebuild ≠ 0 ∧ ∃ t, s.ejectedAt = some t ∧ p.nextRebuild ≤ t + p₀.serverRetryTimeout) ∧
      (∀ now sys, p.nextRebuild ≠ 0 → p.nextRebuild < now → now ≤ sys.now → ∃ p',
        serverPoolUpdate env p now sys = some (.ok, p') ∧ serverPoolRun env p sys = some (.ok, p') ∧
          0 < p'.nliveServer ∧
          ∀ i s, p.server[i]? = some s → s.nextRetry ≤ sys.now → ¬Absent p' i) := by
  have hsched := fresh.scheduled distType eject nonempty weights zero positive init
  have hclock : ∀ e ∈ es, ∀ t ∈ e.clock, 0 < t := fun e he t ht =>
    positive.trans_le ((List.pairwise_cons.mp clock).1 t (List.mem_flatMap.mpr ⟨e, he, ht⟩))
  obtain ⟨p, hp, h⟩ := hsched.events env es hclock
  refine ⟨p, hp, h.out, fun now sys hne hnext hsys => ?_⟩
  have hnow : 0 < sys.now := h.nonneg.trans_lt (hnext.trans_le hsys)
  obtain ⟨p', hrun, hr, -⟩ := h.toStocked.run env hnow
  have hup : serverPoolUpdate env p now sys = serverPoolRun env p sys := by
    rw [serverPoolUpdate, if_neg (by simp [h.eject]), if_neg hne,
      if_neg (not_lt.mpr (h.nonneg.trans hnext.le)), if_neg (not_le.mpr hnext)]
  have hlive {s : PoolServer} (hs : s.nextRetry ≤ sys.now) :
    IsLive p.autoEjectHosts sys.now s = true := by
    simp [IsLive, hs]
  have hcount {s : PoolServer} (hmem : s ∈ p.server) (hs : s.nextRetry ≤ sys.now) :
    0 < p'.nliveServer := by
    rw [hr.nliveServer]
    exact List.countP_pos_iff.mpr ⟨s, hmem, hlive hs⟩
  refine ⟨p', hup.trans hrun, hrun, ?_, fun i s hs hretry habsent => ?_⟩
  · obtain ⟨s, hmem, hle⟩ := h.next hne
    exact hcount hmem (hle.trans (hnext.le.trans hsys))
  · have hmem := List.mem_of_getElem? hs
    refine habsent ⟨i, 0⟩ ?_ rfl
    rw [(hr.live (hcount hmem hretry).ne').2]
    exact List.mem_map_of_mem (mem_ring_of_live hs (hlive hretry) (h.copies_pos hmem))

/-- The first server fails twice, and comes back. -/
theorem ejected_scheduled_twice :
    ∃ p, (serverPoolRun lengthHashing pairPool ⟨1, true⟩).bind
        (fun m => m.2.events lengthHashing
          [.failure 0 2 ⟨2, true⟩, .failure 1 3 ⟨3, true⟩, .failure 0 4 ⟨5, true⟩, .ok 1]) =
            some p ∧
      p.nextRebuild ≠ 0 ∧ ∃ p', serverPoolUpdate lengthHashing p 30000006 ⟨30000006, true⟩ = some
        (.ok, p') ∧
        0 < p'.nliveServer := by
  obtain ⟨p₁, hp₁⟩ : ∃ p₁, serverPoolRun lengthHashing pairPool ⟨1, true⟩ = some (.ok, p₁) :=
    ⟨_, rfl⟩
  obtain ⟨p, hp, -, hup⟩ := ejected_scheduled lengthHashing
    (show Fresh pairPool from ⟨rfl, rfl, rfl⟩)
    (by decide) rfl (by decide) (by decide) (by decide) (by decide) hp₁
    [.failure 0 2 ⟨2, true⟩, .failure 1 3 ⟨3, true⟩, .failure 0 4 ⟨5, true⟩, .ok 1] (by decide)
  cases hp₁
  cases hp
  obtain ⟨p', hp', -, hlive, -⟩ := hup 30000006 ⟨30000006, true⟩ (by decide) (by decide) (by decide)
  exact ⟨_, rfl, by decide, p', hp', hlive⟩

end CacheProxy
