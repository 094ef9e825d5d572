/-
**The order of requests and the pairing with replies.**

The requests of a client are answered in the order they arrived.  A server's replies are linked to
the requests they answer, because what the server has received and not answered is at every moment
what the proxy has in the out-queue of the connection.  The second needs that no message is taken
for an empty one.

Main results:

* `Order.move` — finished and queued requests of a client are in the order of arrival;
* `Paired.move` — a linked reply is the reply to that very request.
-/

import CacheProxy.LedgerFrame

namespace CacheProxy

open Function (update)
open Ledger

variable {mode : Mode} {hold : ℕ → Prop} {b b' : Ledger} {m s c : ℕ}

/-! ### Order -/

/-- The requests a client waits for. -/
def Ledger.pending (b : Ledger) (c : ℕ) : List ℕ := if b.kind c = .client then b.outQ c else []

/-- **Requests are answered in the order of arrival.** -/
structure Order (b : Ledger) : Prop where
  nodup : ∀ c, (b.arrived c).Nodup
  sublist : ∀ c, ((b.finished c).map Prod.fst ++ b.pending c).Sublist (b.arrived c)

namespace Order

/-- Requests leave the queues of clients. -/
theorem mono (h : Order b) (finished : b'.finished = b.finished) (arrived : b'.arrived = b.arrived)
    (pending : ∀ c, (b'.pending c).Sublist (b.pending c)) : Order b' where
  nodup := fun c => arrived ▸ h.nodup c
  sublist := fun c => by
    rw [finished, arrived]
    exact ((List.Sublist.refl _).append (pending c)).trans (h.sublist c)

/-- The queues of a server change. -/
theorem pending_update (kind : b.kind s = .server) (q : List ℕ) (c : ℕ) :
    { b with outQ := update b.outQ s q }.pending c = b.pending c := by
  by_cases hc : b.kind c = .client
  · have hne : c ≠ s := by
      rintro rfl
      simp [hc] at kind
    simp [Ledger.pending, hc, Function.update_of_ne hne]
  · simp [Ledger.pending, hc]

/-- A request leaves the queue of a client. -/
theorem pending_retire (c m d : ℕ) : ((b.retire c m).pending d).Sublist (b.pending d) := by
  dsimp only [Ledger.retire, Ledger.pending]
  split
  · by_cases hd : d = c
    · subst hd
      rw [Function.update_self]
      exact List.erase_sublist
    · rw [Function.update_of_ne hd]
  · exact List.Sublist.refl _

/-- A request joins the queue of its client. -/
theorem join (h : Order b) (joins : Joins hold b c m) :
    Order { b with outQ := update b.outQ c (b.outQ c ++ [m]) } where
  nodup := h.nodup
  sublist := by
    intro d
    by_cases hd : d = c
    · subst hd
      obtain ⟨before, harr, hsub⟩ := joins.order
      simp only [Ledger.pending, if_pos joins.kind, Function.update_self, harr]
      rw [← List.append_assoc]
      exact hsub.append (List.Sublist.refl _)
    · simpa [Ledger.pending, Function.update_of_ne hd] using h.sublist d

/-- A request arrives. -/
theorem arrive (h : Order b) (new : m ∉ b.arrived c) :
    Order { b with arrived := update b.arrived c (b.arrived c ++ [m]) } := by
  have hnew : (b.arrived c ++ [m]).Nodup := by
    rw [List.nodup_append]
    exact ⟨h.nodup c, by simp, by grind⟩
  refine ⟨fun d => ?_, fun d => ?_⟩ <;> dsimp only
  · by_cases hd : d = c
    · subst hd
      rwa [Function.update_self]
    · rw [Function.update_of_ne hd]
      exact h.nodup d
  · by_cases hd : d = c
    · subst hd
      rw [Function.update_self]
      exact (h.sublist d).trans (List.sublist_append_left _ _)
    · rw [Function.update_of_ne hd]
      exact h.sublist d

/-- The first request of a client is finished. -/
theorem finish (h : Order b) (queued : b.InClient c m) (first : (b.outQ c).head? = some m) (r : ℕ) :
    Order { b.retire c m with finished := update b.finished c (b.finished c ++ [(m, r)]) } where
  nodup := h.nodup
  sublist := by
    intro d
    by_cases hd : d = c
    · subst hd
      obtain ⟨rest, hrest⟩ : ∃ rest, b.outQ d = m :: rest := by
        cases hq : b.outQ d with
        | nil => simp [hq] at first
        | cons k rest => exact ⟨rest, by simp_all⟩
      have hold := h.sublist d
      simp only [Ledger.pending, if_pos queued.1, hrest] at hold
      simpa [Ledger.pending, Ledger.retire, queued.1, hrest] using hold
    · simpa [Ledger.pending, Ledger.retire, Function.update_of_ne hd] using h.sublist d

/-- A connection without requests becomes one of another kind. -/
theorem setKind (h : Order b) (kind : ConnKind) (outQ : b.outQ c = []) :
    Order { b with kind := update b.kind c kind } := by
  refine h.mono rfl rfl fun d => ?_
  by_cases hd : d = c
  · subst hd
    simp [Ledger.pending, outQ]
  · simp [Ledger.pending, Function.update_of_ne hd]

theorem move (h : Order b) (hq : Queues b) (hmove : Move mode hold b b') : Order b' := by
  have hsame : ∀ {x : Ledger}, (∀ d, x.pending d = b.pending d) →
      ∀ d, (x.pending d).Sublist (b.pending d) := fun hx d => hx d ▸ List.Sublist.refl _
  cases hmove with
  | @connect d kind connecting awake unused =>
    have hout := hq.outEmpty d (by simp [unused]) (by simp [unused])
    exact { h.setKind kind hout with }
  | @arrive d k live apart new => exact h.arrive new
  | @queue d k joins => exact h.join joins
  | @make d k times joins => exact { h.join joins with }
  | @sent s k rest kind =>
    cases hn : b.noreply k
    · exact h.mono rfl rfl (hsame (pending_update kind _))
    · exact { h with }
  | @skip s k kind =>
    cases hn : b.noreply k
    · exact h.mono rfl rfl (hsame (pending_update kind _))
    · exact { h with }
  | @fail s k queued =>
    exact h.mono rfl rfl (hsame (pending_update queued.1 _))
  | @drop s k queued => exact h.mono rfl rfl (hsame (pending_update queued.1 _))
  | @answer s k rest bare times kind =>
    exact h.mono rfl rfl (hsame (pending_update kind _))
  | @swallowReply s k rest bare times kind =>
    exact h.mono rfl rfl (hsame (pending_update kind _))
  | @finish d k r queued peer done first =>
    cases hb : b.bare r
    · exact { h.finish queued (first.resolve_left (by simp [hb])) r with }
    · exact h.mono rfl rfl (pending_retire (b := b) d k)
  | @fragment d k => exact h.mono rfl rfl (pending_retire (b := b) d k)
  | @discard d k => exact h.mono rfl rfl (pending_retire (b := b) d k)
  | @swallow d k => exact h.mono rfl rfl (pending_retire (b := b) d k)
  | @shut d inQ outQ => exact h.setKind .closed outQ
  | _ => exact { h with }

end Order

/-! ### Pairing -/

/-- **A linked reply is the reply to its request**, and so is a finished one; as long as no message
is taken for an empty one. -/
structure Paired (b : Ledger) : Prop where
  inbox : ∀ s, b.kind s ≠ .client → b.kind s ≠ .closed → b.closing s = false → b.mute s = false →
    b.inbox s = b.outQ s
  filled : ∀ s m, m ∈ b.inQ s → b.bare m = false
  linked : ∀ q r, b.Live q → b.request q = true → b.peer q = some r → b.answers r = some q
  finished : ∀ c, ∀ x ∈ b.finished c, x.2 < b.nextMsg ∧ b.answers x.2 = some x.1
  attached : ∀ x ∈ b.attached, x.2 < b.nextMsg ∧ b.answers x.2 = some x.1

namespace Paired

/-- A response is made for a request. -/
theorem takeAnswer (h : Paired b) (hq : Queues b) (hl : Links b) (request : Bool)
    (owner answers : Option ℕ) (swallow bare : Bool) :
    Paired { b.take request owner swallow bare with
      answers := update b.answers b.nextMsg answers } where
  inbox := h.inbox
  filled := fun s m hm =>
    (Function.update_of_ne (hq.lt_next (.inl hm)).ne _ _).trans (h.filled s m hm)
  linked := by
    intro q r hlive hr hp
    have hqn : q ≠ b.nextMsg := by
      rintro rfl
      have : none = some r := (Function.update_self b.nextMsg _ _).symm.trans hp
      cases this
    have hlive' : b.Live q := ⟨lt_of_le_of_ne (Nat.lt_succ_iff.1 hlive.1) hqn, hlive.2⟩
    have hp' : b.peer q = some r := (Function.update_of_ne hqn _ _).symm.trans hp
    have hr' : b.request q = true := (Function.update_of_ne hqn _ _).symm.trans hr
    exact (Function.update_of_ne (hl.pair q r hlive' hp').1.1.ne _ _).trans
      (h.linked q r hlive' hr' hp')
  finished := by
    intro c x hx
    obtain ⟨hn, ha⟩ := h.finished c x hx
    exact ⟨Nat.lt_succ_of_lt hn, (Function.update_of_ne hn.ne _ _).trans ha⟩
  attached := by
    intro x hx
    obtain ⟨hn, ha⟩ := h.attached x hx
    exact ⟨Nat.lt_succ_of_lt hn, (Function.update_of_ne hn.ne _ _).trans ha⟩

theorem take (h : Paired b) (hq : Queues b) (hl : Links b) (request : Bool) (owner : Option ℕ)
    (swallow bare : Bool) : Paired (b.take request owner swallow bare) := by
  have h1 := h.takeAnswer hq hl request owner (b.answers b.nextMsg) swallow bare
  rw [Function.update_eq_self] at h1
  exact h1

theorem link (h : Paired b) {r : ℕ} (answers : b.answers r = some m)
    (response : b.request r = false) : Paired (b.link m r) where
  __ := h
  linked := by
    intro q r' hlive hr hp
    have hqr : q ≠ r := by
      rintro rfl
      have : b.request q = true := hr
      simp [response] at this
    dsimp only [Ledger.link] at hp
    rw [Function.update_of_ne hqr] at hp
    by_cases hqm : q = m
    · subst hqm
      rw [Function.update_self, Option.some.injEq] at hp
      exact hp ▸ answers
    · rw [Function.update_of_ne hqm] at hp
      exact h.linked q r' hlive hr hp

/-- A request joins the in-queue of a server. -/
theorem filled_cons (h : Paired b) {q : List ℕ} (perm : q.Perm (m :: b.inQ s))
    (filled : b.bare m = false) (t k : ℕ) (hk : k ∈ update b.inQ s q t) : b.bare k = false := by
  have hold := h.filled t k
  have hs := h.filled s k
  have := perm.mem_iff (a := k)
  grind [Function.update_apply]

theorem split (h : Paired b) (hq : Queues b) {n : ℕ} (hu : b.Unsent m)
    (bare : ℕ → Bool) : Paired (b.split c m n bare) where
  inbox := h.inbox
  filled := by
    intro s k hk
    have hlt : ¬ b.nextMsg ≤ k := (hq.lt_next (.inl hk)).not_ge
    have hne : k ≠ m := by
      rintro rfl
      exact hu.inQ s hk
    simpa [Ledger.split, hlt, hne] using h.filled s k hk
  linked := by
    intro q r hlive hr hp
    by_cases hids : q ∈ List.range' b.nextMsg n
    · simp only [Ledger.split, if_pos hids] at hp
      cases hp
    · simp only [Ledger.split, if_neg hids] at hr hp
      have hlt : q < b.nextMsg := by
        have hn := hlive.1
        simp only [Ledger.split] at hn
        rw [List.mem_range'_1] at hids
        omega
      exact h.linked q r ⟨hlt, hlive.2⟩ hr hp
  finished := fun d x hx => ⟨Nat.lt_add_right n (h.finished d x hx).1, (h.finished d x hx).2⟩
  attached := fun x hx => ⟨Nat.lt_add_right n (h.attached x hx).1, (h.attached x hx).2⟩

/-- Messages are given back. -/
theorem setFreed (h : Paired b) {freed : ℕ → Bool} {peer : ℕ → Option ℕ}
    (gone : ∀ k, freed k = false → b.freed k = false)
    (cut : ∀ k r, peer k = some r → b.peer k = some r) :
    Paired { b with freed := freed, peer := peer } where
  __ := h
  linked := fun q r hlive hr hp => h.linked q r ⟨hlive.1, gone q hlive.2⟩ hr (cut q r hp)

theorem free (h : Paired b) (m : ℕ) : Paired (b.free m) := by
  refine h.setFreed (fun k hk => ?_) fun _ _ hp => hp
  grind only [Function.update_apply]

theorem unlink (h : Paired b) (m : ℕ) : Paired (b.unlink m) := by
  refine h.setFreed (fun k hk => ?_) fun k r hp => ?_
  · grind
  · grind

/-- A server answers the first request in its out-queue. -/
theorem reply (h : Paired b) (hq : Queues b) (hl : Links b) {rest : List ℕ}
    (kind : b.kind s = .server) (first : b.outQ s = m :: rest) (closing : b.closing s = false)
    (mute : b.mute s = false) (bare : Bool) : Paired ((b.reply s bare).leave s m) := by
  have hbox := h.inbox s (by simp [kind]) (by simp [kind]) closing mute
  have h1 := h.takeAnswer hq hl false (some s) (b.inbox s).head? false bare
  refine { h1 with inbox := fun t ht ht' hc hm => ?_, filled := fun t k hk => h1.filled t k ?_ }
  · by_cases hts : t = s
    · subst hts
      simp [Ledger.leave, Ledger.reply, Ledger.take, hbox, first]
    · simpa [Ledger.leave, Ledger.reply, Ledger.take, Function.update_of_ne hts] using
        h.inbox t ht ht' hc hm
  · dsimp only [Ledger.leave, Ledger.reply, Ledger.take] at hk ⊢
    grind only [Function.update_apply, List.mem_of_mem_erase]

theorem put (h : Paired b) (m : ℕ) : Paired (b.put m) := by
  have h1 : Paired { b with freed := (b.put m).freed, peer := (b.put m).peer } := by
    refine h.setFreed (fun k hk => ?_) fun k r hp => ?_
    · dsimp only [Ledger.put, Ledger.free, Ledger.untime, Ledger.unlink] at hk
      grind [Function.update_apply]
    · dsimp only [Ledger.put, Ledger.free, Ledger.untime, Ledger.unlink] at hp
      grind
  exact { h1 with }

/-- The queue of a client changes. -/
theorem setClient (h : Paired b) (kind : b.kind c = .client) (q : List ℕ) :
    Paired { b with outQ := update b.outQ c q } where
  __ := h
  inbox := by
    intro s hs hs' hc hm
    refine (h.inbox s hs hs' hc hm).trans (Function.update_of_ne ?_ _ _).symm
    rintro rfl
    exact hs kind

/-- A request leaves the queues of a server that is being closed. -/
theorem leave (h : Paired b) (m : ℕ) (closing : b.closing s = true) : Paired (b.leave s m) where
  __ := h
  inbox := by
    intro t ht ht' hc hm
    refine (h.inbox t ht ht' hc hm).trans (Function.update_of_ne ?_ _ _).symm
    rintro rfl
    simp [Ledger.leave, closing] at hc
  filled := by
    intro t k hk
    refine h.filled t k ?_
    dsimp only [Ledger.leave] at hk
    grind only [Function.update_apply, List.mem_of_mem_erase]

theorem move (h : Paired b) (hq : Queues b) (hl : Links b) (hw : Waiting hold b)
    (ample : mode.ample)
    (hmove : Move mode hold b b') : Paired b' := by
  cases hmove with
  | idle bare fault awake keeps =>
    exact { h with filled := fun s m hm => (keeps s m hm).trans (h.filled s m hm) }
  | @connect c kind connecting awake unused =>
    refine { h with inbox := fun s hs hs' hc hm => ?_ }
    by_cases hsc : s = c
    · subst hsc
      exact h.inbox s (by simp [unused]) (by simp [unused]) hc hm
    · simp only [Function.update_of_ne hsc] at hs hs'
      exact h.inbox s hs hs' hc hm
  | @listen c => exact { h.take hq hl true (some c) false true with }
  | unread | stamp | arrive | established | pick | rest | unforwarded | mark | login | expire =>
    exact { h with }
  | @parse c m noreply bare reading =>
    refine { h with filled := fun s k hk => (Function.update_of_ne ?_ _ _).trans (h.filled s k hk) }
    rintro rfl
    exact (hw.reading c k reading).1.1.inQ s hk
  | @split c m n bare times seq loose =>
    exact { h.split (c := c) (n := n) hq loose.1 bare with }
  | @queue c m joins => exact h.setClient joins.kind _
  | @make c m times joins =>
    have h1 := (h.takeAnswer hq hl false (some c) (some m) false true).link
      (m := m) (r := b.nextMsg) (Function.update_self ..) (Function.update_self ..)
    exact { h1.setClient joins.kind (b.outQ c ++ [m]) with }
  | @send s m key kind closing unsent apart home owner ample' =>
    exact { h with filled := h.filled_cons (List.perm_append_singleton m _) (ample' ample) }
  | @auth s c key bare times kind closing require auth ample' =>
    have h1 := h.take hq hl true (some c) true bare
    exact { h1 with
      filled := h1.filled_cons (m := b.nextMsg) (List.perm_append_singleton _ _)
        ((Function.update_self ..).trans (ample' (.inl ample))) }
  | @select s key bare times kind closing connecting select ample' =>
    have h1 := h.take hq hl true none true bare
    exact { h1 with
      filled := h1.filled_cons (m := b.nextMsg) (List.Perm.refl _)
        ((Function.update_self ..).trans (ample' (.inl ample))) }
  | @sent s m =>
    refine { h with inbox := fun t ht ht' hc hm => ?_, filled := fun t k hk => h.filled t k ?_ }
    · have hold := h.inbox t ht ht' hc hm
      cases hn : b.noreply m
      · by_cases hts : t = s
        · subst hts
          simp [hold]
        · simpa [Function.update_of_ne hts] using hold
      · exact hold
    · dsimp only at hk
      grind [Function.update_apply]
  | @skip s m kind queued bare => simp [h.filled s m queued] at bare
  | @fail s m queued closing => exact { h.leave m closing with }
  | @drop s m queued closing => exact { (h.leave m closing).put m with }
  | @answer s m rest bare times kind closing mute first =>
    have hbox := h.inbox s (by simp [kind]) (by simp [kind]) closing mute
    have h1 := (h.reply hq hl kind first closing mute bare).link (m := m) (r := b.nextMsg)
      ((Function.update_self ..).trans (by rw [hbox, first]; rfl)) (Function.update_self ..)
    refine { h1 with attached := fun x hx => ?_ }
    rcases List.mem_append.1 hx with hx | hx
    · exact h1.attached x hx
    · rw [List.mem_singleton.1 hx]
      exact ⟨Nat.lt_succ_self _, (Function.update_self ..).trans (by rw [hbox, first]; rfl)⟩
  | @swallowReply s m rest bare times kind closing mute first =>
    have h1 := h.reply hq hl kind first closing mute bare
    have h2 : Paired (((b.reply s bare).free b.nextMsg).leave s m) := { h1.free b.nextMsg with }
    have h3 : Paired { ((b.reply s bare).free b.nextMsg).leave s m with
      done := update (update b.done b.nextMsg false) m true } := { h2 with }
    exact { h3.put m with }
  | @lose s bare mute times kind ample' =>
    have h1 := (h.takeAnswer hq hl false (some s) (b.inbox s).head? false bare).free b.nextMsg
    refine { h1 with inbox := fun t ht ht' hc hm => ?_ }
    have hts : t ≠ s := by
      rintro rfl
      simp [ample' ample] at hm
    dsimp only at hm
    rw [Function.update_of_ne hts] at hm
    exact (Function.update_of_ne hts _ _).trans (h.inbox t ht ht' hc hm)
  | @unlink c m => exact h.unlink m
  | @blame c m queued done peer fault bare =>
    have h1 := (h.takeAnswer hq hl false none (some m) false bare).link
      (m := m) (r := b.nextMsg) (Function.update_self ..) (Function.update_self ..)
    exact { h1 with }
  | @finish c m r queued peer =>
    obtain ⟨hlive, hreq, -⟩ := hq.client c m queued
    have h1 := h.setClient queued.1 ((b.outQ c).erase m)
    have hr : r < b.nextMsg ∧ b.answers r = some m :=
      ⟨(hl.pair m r hlive peer).1.1, h.linked m r hlive hreq peer⟩
    have h2 : Paired { b.retire c m with
        finished := if b.bare r then b.finished
          else update b.finished c (b.finished c ++ [(m, r)]) } := by
      refine { h1 with finished := fun d x hx => ?_ }
      have hd := h.finished d x
      dsimp only [Ledger.retire] at hx ⊢
      grind [Function.update_apply]
    exact { h2.put m with }
  | @fragment c m queued =>
    exact { (h.setClient queued.1 ((b.outQ c).erase m)).put m with }
  | @discard c m queued =>
    exact { (h.setClient queued.1 ((b.outQ c).erase m)).put m with }
  | @swallow c m queued => exact { h.setClient queued.1 ((b.outQ c).erase m) with }
  | @put m => exact { h.put m with }
  | closing =>
    refine { h with inbox := fun s hs hs' hc hm => h.inbox s hs hs' ?_ hm }
    dsimp only at hc
    grind only [Function.update_apply]
  | @shut c =>
    refine { h with inbox := fun s hs hs' hc hm => ?_ }
    have hsc : s ≠ c := by
      rintro rfl
      simp at hs'
    simp only [Function.update_of_ne hsc] at hs hs'
    exact h.inbox s hs hs' hc hm

end Paired

end CacheProxy
