/-
**What a move leaves alone.**

A message that is on hold, or being received, is not touched by a move: it stays in the queues it
is in, and nothing recorded about it changes.  So what a handler knew about it is still known after
any number of moves.

Main results:

* `Move.fixed` — a move leaves waiting messages alone;
* `Waiting.move` — so they go on waiting.
-/

import CacheProxy.LedgerQueues

namespace CacheProxy

open Function (update)
open Ledger

/-- **The message `m` is left alone** on the way from `b` to `b'`. -/
structure Fixed (m : ℕ) (b b' : Ledger) : Prop where
  next : b.nextMsg ≤ b'.nextMsg
  freed : b'.freed m = b.freed m
  request : b'.request m = b.request m
  owner : b'.owner m = b.owner m
  peer : b'.peer m = b.peer m
  fragOwner : b'.fragOwner m = b.fragOwner m
  fragId : b'.fragId m = b.fragId m
  done : b'.done m = b.done m
  fdone : b'.fdone m = b.fdone m
  swallow : b'.swallow m = b.swallow m
  failed : b'.failed m = b.failed m
  role : b'.role m = b.role m
  inQ : ∀ c, m ∈ b'.inQ c ↔ m ∈ b.inQ c
  outQ : ∀ c, m ∈ b'.outQ c ↔ m ∈ b.outQ c
  kind : ∀ c, m ∈ b.outQ c → b'.kind c = b.kind c
  tmo : ∀ e : TmoNode, e.msg = m → (e ∈ b'.tmo ↔ e ∈ b.tmo)
  arrived : ∀ c, m ∈ b'.arrived c ↔ m ∈ b.arrived c

variable {mode : Mode} {hold : ℕ → Prop} {b b' b'' : Ledger} {m k : ℕ}

namespace Fixed

theorem refl (m : ℕ) (b : Ledger) : Fixed m b b where
  next := le_rfl
  freed := rfl
  request := rfl
  owner := rfl
  peer := rfl
  fragOwner := rfl
  fragId := rfl
  done := rfl
  fdone := rfl
  swallow := rfl
  failed := rfl
  role := rfl
  inQ := fun _ => Iff.rfl
  outQ := fun _ => Iff.rfl
  kind := fun _ _ => rfl
  tmo := fun _ _ => Iff.rfl
  arrived := fun _ => Iff.rfl

theorem trans (h : Fixed m b b') (h' : Fixed m b' b'') : Fixed m b b'' where
  next := h.next.trans h'.next
  freed := h'.freed.trans h.freed
  request := h'.request.trans h.request
  owner := h'.owner.trans h.owner
  peer := h'.peer.trans h.peer
  fragOwner := h'.fragOwner.trans h.fragOwner
  fragId := h'.fragId.trans h.fragId
  done := h'.done.trans h.done
  fdone := h'.fdone.trans h.fdone
  swallow := h'.swallow.trans h.swallow
  failed := h'.failed.trans h.failed
  role := h'.role.trans h.role
  inQ := fun c => (h'.inQ c).trans (h.inQ c)
  outQ := fun c => (h'.outQ c).trans (h.outQ c)
  kind := fun c hc => (h'.kind c ((h.outQ c).2 hc)).trans (h.kind c hc)
  tmo := fun e he => (h'.tmo e he).trans (h.tmo e he)
  arrived := fun c => (h'.arrived c).trans (h.arrived c)

/-! ### Operations on other messages -/

theorem take (hm : m < b.nextMsg) (request : Bool) (owner : Option ℕ) (swallow bare : Bool) :
    Fixed m b (b.take request owner swallow bare) := by
  have hne : m ≠ b.nextMsg := hm.ne
  constructor <;> simp [Ledger.take, Function.update_of_ne hne]

theorem unlink (hne : m ≠ k) (hr : b.peer k ≠ some m) : Fixed m b (b.unlink k) := by
  constructor <;> simp [Ledger.unlink, hne, hr]

theorem untime (hne : m ≠ k) : Fixed m b (b.untime k) where
  __ := refl m b
  tmo := by
    rintro e rfl
    exact List.mem_eraseP_of_neg (by simpa using hne)

theorem free (hne : m ≠ k) : Fixed m b (b.free k) where
  __ := refl m b
  freed := Function.update_of_ne hne _ _

theorem put (hne : m ≠ k) (hr : b.peer k ≠ some m) : Fixed m b (b.put k) :=
  ((unlink hne hr).trans (untime hne)).trans (free hne)

theorem link {r : ℕ} (hne : m ≠ k) (hr : m ≠ r) : Fixed m b (b.link k r) where
  __ := refl m b
  peer := by
    dsimp only [Ledger.link]
    rw [Function.update_of_ne hr, Function.update_of_ne hne]

theorem setDone (hne : m ≠ k) (done : Bool) :
    Fixed m b { b with done := update b.done k done } where
  __ := refl m b
  done := Function.update_of_ne hne _ _

theorem mem_update_erase {f : ℕ → List ℕ} (hne : m ≠ k) (s c : ℕ) :
    m ∈ update f s ((f s).erase k) c ↔ m ∈ f c := by
  grind only [Function.update_apply, List.mem_erase_of_ne]

theorem mem_update_append {f : ℕ → List ℕ} (hne : m ≠ k) (s c : ℕ) :
    m ∈ update f s (f s ++ [k]) c ↔ m ∈ f c := by
  grind [Function.update_apply]

theorem mem_update_cons {f : ℕ → List ℕ} (hne : m ≠ k) (s c : ℕ) :
    m ∈ update f s (k :: f s) c ↔ m ∈ f c := by
  grind [Function.update_apply]

theorem mem_out {f : ℕ → List ℕ} (hne : m ≠ k) (s : ℕ) {noreply : Bool} (c : ℕ) :
    m ∈ (if noreply then f else update f s (f s ++ [k])) c ↔ m ∈ f c := by
  cases noreply
  · exact mem_update_append hne s c
  · rfl

theorem leave (hne : m ≠ k) (s : ℕ) : Fixed m b (b.leave s k) where
  __ := refl m b
  inQ := mem_update_erase hne s
  outQ := mem_update_erase hne s
  tmo := by
    rintro e rfl
    dsimp only [Ledger.leave]
    split
    · exact List.mem_eraseP_of_neg (by simpa using hne)
    · rfl

theorem retire (hne : m ≠ k) (c : ℕ) : Fixed m b (b.retire c k) where
  __ := refl m b
  outQ := mem_update_erase hne c

theorem time (hne : m ≠ k) (timeout key : ℤ) (s : ℕ) : Fixed m b (b.time timeout key s k) where
  __ := refl m b
  tmo := by
    rintro e rfl
    dsimp only [Ledger.time]
    split
    · rfl
    · grind

theorem split (hm : m < b.nextMsg) (hne : m ≠ k) (c n : ℕ) (bare : ℕ → Bool) :
    Fixed m b (b.split c k n bare) := by
  have hids : ¬ b.nextMsg ≤ m := hm.not_ge
  constructor <;> simp [Ledger.split, Function.update_of_ne hne, hids]

/-- A message that no server was given stays so while it is left alone. -/
theorem unsent (h : Fixed m b b') (hu : b.Unsent m) : b'.Unsent m := by
  refine ⟨⟨hu.live.1.trans_le h.next, h.freed.trans hu.live.2⟩, h.request.trans hu.request,
    h.done.trans hu.done, h.fdone.trans hu.fdone, h.peer.trans hu.peer, ?_, ?_, ?_,
    h.failed.trans hu.failed, h.role.trans hu.role, h.swallow.trans hu.swallow⟩
  · intro c hc
    exact hu.inQ c ((h.inQ c).1 hc)
  · intro c hc
    have hc' := (h.outQ c).1 hc
    exact (h.kind c hc').trans (hu.kind hc')
  · intro e he hem
    exact hu.tmo ((h.tmo e hem).1 he) hem

theorem loose (h : Fixed m b b') (hl : b.Loose m) : b'.Loose m :=
  ⟨h.unsent hl.1, fun c hc => hl.2 c ((h.outQ c).1 hc)⟩

end Fixed

/-! ### Moves -/

/-- **A message that waits**: it is on hold, or it is being received. -/
def Waits (hold : ℕ → Prop) (b : Ledger) (m : ℕ) : Prop := hold m ∨ ∃ c, b.rmsg c = some m

theorem Waiting.unsent (hw : Waiting hold b) (hm : Waits hold b m) : b.Unsent m := by
  rcases hm with hh | ⟨c, hc⟩
  · exact hw.held m hh
  · exact (hw.reading c m hc).1.1

theorem Ledger.Apart.ne (h : Apart hold b k) (hm : Waits hold b m) : m ≠ k := by
  rintro rfl
  rcases hm with hh | ⟨c, hc⟩
  · exact h.1 hh
  · exact h.2 c hc

/-- **A move leaves alone what waits.** -/
theorem Move.fixed (hmove : Move mode hold b b') (hq : Queues b) (hl : Links b)
    (hw : Waiting hold b) (hm : Waits hold b m) : Fixed m b b' := by
  have hu := hw.unsent hm
  have hserver : ∀ {s k}, b.InServer s k → m ≠ k := by
    rintro s k hk rfl
    exact hu.not_inServer s hk
  have hdone : ∀ {k}, b.done k = true → m ≠ k := by
    rintro k hk rfl
    simp [hu.done] at hk
  have hpeer : ∀ {k}, b.Live k → b.request k = true → b.peer k ≠ some m := by
    intro k hk hr hp
    simpa [hr, hu.request] using (hl.pair k m hk hp).2.2
  cases hmove with
  | idle | unread | stamp | parse | established | pick | rest | login | closing =>
    exact { Fixed.refl m b with }
  | @connect c kind connecting awake unused =>
    refine { Fixed.refl m b with kind := fun d hd => Function.update_of_ne ?_ _ _ }
    rintro rfl
    simp [hu.kind hd] at unused
  | @listen c => exact { Fixed.take hu.live.1 true (some c) false true with }
  | @arrive c k live apart =>
    exact { Fixed.refl m b with arrived := Fixed.mem_update_append (apart.ne hm) c }
  | @split c k n bare times seq loose apart =>
    exact { Fixed.split hu.live.1 (apart.ne hm) c n bare with }
  | @queue c k joins =>
    exact { Fixed.refl m b with outQ := Fixed.mem_update_append (joins.apart.ne hm) c }
  | @make c k times joins =>
    have hne := joins.apart.ne hm
    have h1 := (Fixed.take hu.live.1 false (some c) false true).trans
      ((Fixed.link hne hu.live.1.ne).trans (Fixed.setDone hne true))
    exact { h1 with outQ := Fixed.mem_update_append hne c }
  | @send s k key kind closing unsent apart =>
    exact { Fixed.time (apart.ne hm) mode.timeout key s with
      inQ := Fixed.mem_update_append (apart.ne hm) s }
  | @auth s c key bare =>
    have hne : m ≠ b.nextMsg := hu.live.1.ne
    have h1 := (Fixed.take hu.live.1 true (some c) true bare).trans
      (Fixed.time hne mode.timeout key s)
    exact { h1 with
      inQ := Fixed.mem_update_append hne s
      role := Function.update_of_ne hne _ _ }
  | @select s key bare =>
    have hne : m ≠ b.nextMsg := hu.live.1.ne
    have h1 := (Fixed.take hu.live.1 true none true bare).trans (Fixed.time hne mode.timeout key s)
    exact { h1 with
      inQ := Fixed.mem_update_cons hne s
      role := Function.update_of_ne hne _ _ }
  | @sent s k rest kind closing connecting first =>
    have hne : m ≠ k := hserver ⟨kind, .inl (by simp [first])⟩
    have hrest : rest = (b.inQ s).erase k := by rw [first, List.erase_cons_head]
    subst hrest
    exact { Fixed.refl m b with
      inQ := Fixed.mem_update_erase hne s
      outQ := Fixed.mem_out hne s }
  | @skip s k kind queued =>
    have hne : m ≠ k := hserver ⟨kind, .inl queued⟩
    exact { Fixed.refl m b with
      inQ := Fixed.mem_update_erase hne s
      outQ := Fixed.mem_out hne s }
  | @unforwarded k unsent apart =>
    exact { Fixed.setDone (apart.ne hm) true with
      failed := Function.update_of_ne (apart.ne hm) _ _ }
  | @fail s k queued =>
    have hne := hserver queued
    exact { (Fixed.leave hne s).trans (Fixed.setDone hne true) with }
  | @drop s k queued =>
    have hne := hserver queued
    have h1 := (Fixed.leave (b := b) hne s).trans (Fixed.put hne
      (by simp [Ledger.leave, (hq.server s k queued).2.2.2]))
    exact { h1 with }
  | @answer s k rest bare times kind closing mute first =>
    have hne : m ≠ k := hserver ⟨kind, .inr (by simp [first])⟩
    have h1 := ((Fixed.take hu.live.1 false (some s) false bare).trans (Fixed.leave hne s)).trans
      ((Fixed.link hne hu.live.1.ne).trans (Fixed.setDone hne true))
    exact { h1 with }
  | @swallowReply s k rest bare times kind closing mute first =>
    have hk : b.InServer s k := ⟨kind, .inr (by simp [first])⟩
    have hne : m ≠ k := hserver hk
    have h1 := (Fixed.take hu.live.1 false (some s) false bare).trans (Fixed.free hu.live.1.ne)
    have h2 : Fixed m b ((b.reply s bare).free b.nextMsg) := { h1 with }
    obtain ⟨hlive, -, -, hp⟩ := hq.server s k hk
    have hpk : (b.reply s bare).peer k ≠ some m := by
      rw [show (b.reply s bare).peer k = b.peer k from Function.update_of_ne hlive.1.ne _ _, hp]
      simp
    have h3 := (h2.trans (Fixed.leave hne s)).trans ((Fixed.setDone hne true).trans
      (Fixed.put hne hpk))
    exact { h3 with }
  | @lose s bare =>
    exact { (Fixed.take hu.live.1 false (some s) false bare).trans (Fixed.free hu.live.1.ne) with }
  | @mark c k queued owner done fdone =>
    exact { Fixed.refl m b with fdone := if_neg fun hk => hdone (done m hk) rfl }
  | @unlink c k queued done =>
    obtain ⟨hlive, hreq, -⟩ := hq.client c k queued
    exact Fixed.unlink (hdone done) (hpeer hlive hreq)
  | @blame c k queued done peer fault bare =>
    have h1 := (Fixed.take hu.live.1 false none false bare).trans
      (Fixed.link (hdone done) hu.live.1.ne)
    exact { h1 with }
  | @finish c k r queued peer =>
    obtain ⟨hlive, hreq, -⟩ := hq.client c k queued
    have hne := hdone (hl.linked k r hlive hreq peer).1
    have h1 := (Fixed.retire (b := b) hne c).trans (Fixed.put hne (hpeer hlive hreq))
    exact { h1 with }
  | @fragment c k queued done =>
    obtain ⟨hlive, hreq, -⟩ := hq.client c k queued
    have h1 := (Fixed.retire (b := b) (hdone done) c).trans
      (Fixed.put (hdone done) (hpeer hlive hreq))
    exact { h1 with }
  | @discard c k queued done =>
    obtain ⟨hlive, hreq, -⟩ := hq.client c k queued
    have h1 := (Fixed.retire (b := b) (hdone done) c).trans
      (Fixed.put (hdone done) (hpeer hlive hreq))
    exact { h1 with }
  | @swallow c k queued done free =>
    have hne : m ≠ k := by
      rintro rfl
      rcases hm with hh | ⟨d, hd⟩
      · exact free hh
      · exact (hw.reading d m hd).1.2 c queued.2
    exact { Fixed.retire hne c with swallow := Function.update_of_ne hne _ _ }
  | @put k site live request apart peer =>
    exact { Fixed.put (b := b) (apart.ne hm) (by simp [peer]) with }
  | @shut c inQ outQ =>
    refine { Fixed.refl m b with kind := fun d hd => Function.update_of_ne ?_ _ _ }
    rintro rfl
    simp [outQ] at hd
  | @expire e node => exact Fixed.untime (hu.tmo node).symm

/-- A message that is being received was so before, or was just taken. -/
theorem Move.rmsg (hmove : Move mode hold b b') {c : ℕ} (hc : b'.rmsg c = some m) :
    b.rmsg c = some m ∧ (b.kind c = .client → b'.kind c = .client) ∨
      b.kind c = .client ∧ m = b.nextMsg ∧ ∃ times,
        b' = { (b.take true (some c) false true).start b.nextMsg mode.now times with
          rmsg := update b.rmsg c (some b.nextMsg) } := by
  cases hmove with
  | @connect d kind connecting awake unused =>
    refine .inl ⟨hc, fun hk => (Function.update_of_ne ?_ _ _).trans hk⟩
    rintro rfl
    simp [unused] at hk
  | @listen d times kind =>
    by_cases hcd : c = d
    · subst hcd
      have hm : some b.nextMsg = some m := (Function.update_self c _ _).symm.trans hc
      exact .inr ⟨kind, (Option.some.inj hm).symm, times, rfl⟩
    · exact .inl ⟨(Function.update_of_ne hcd _ _).symm.trans hc, id⟩
  | unread d =>
    by_cases hcd : c = d
    · subst hcd
      have hm : none = some m := (Function.update_self c _ _).symm.trans hc
      cases hm
    · exact .inl ⟨(Function.update_of_ne hcd _ _).symm.trans hc, id⟩
  | @shut d inQ outQ rmsg =>
    refine .inl ⟨hc, fun hk => (Function.update_of_ne ?_ _ _).trans hk⟩
    rintro rfl
    have : b.rmsg c = some m := hc
    simp [rmsg] at this
  | _ => exact .inl ⟨hc, id⟩

/-- **Nothing is known about messages that were not taken.** -/
structure Blank (b : Ledger) : Prop where
  failed : ∀ m, b.nextMsg ≤ m → b.failed m = false
  role : ∀ m, b.nextMsg ≤ m → b.role m = .client
  arrived : ∀ c, ∀ m ∈ b.arrived c, m < b.nextMsg
  tmo : ∀ e ∈ b.tmo, e.msg < b.nextMsg

namespace Blank

theorem mono (h : Blank b) (next : b.nextMsg ≤ b'.nextMsg) (failed : b'.failed = b.failed)
    (role : b'.role = b.role) (arrived : b'.arrived = b.arrived) (tmo : b'.tmo.Sublist b.tmo) :
    Blank b' where
  failed := fun m hm => failed ▸ h.failed m (next.trans hm)
  role := fun m hm => role ▸ h.role m (next.trans hm)
  arrived := fun c m hm => (h.arrived c m (arrived ▸ hm)).trans_le next
  tmo := fun e he => (h.tmo e (tmo.subset he)).trans_le next

theorem time (h : Blank b) (hm : m < b.nextMsg) (timeout key : ℤ) (s : ℕ) :
    Blank (b.time timeout key s m) where
  __ := h
  tmo := by
    intro e he
    dsimp only [Ledger.time] at he
    split at he
    · exact h.tmo e he
    · rcases List.mem_append.1 he with he | he
      · exact h.tmo e he
      · rw [List.mem_singleton.1 he]
        exact hm

theorem setRole (h : Blank b) (hm : m < b.nextMsg) (role : Role) :
    Blank { b with role := update b.role m role } where
  __ := h
  role := fun k hk => (Function.update_of_ne (hm.trans_le hk).ne' _ _).trans (h.role k hk)

theorem move (h : Blank b) (hmove : Move mode hold b b') : Blank b' := by
  have hput : ∀ {x : Ledger} {k : ℕ}, (x.put k).tmo.Sublist x.tmo := List.eraseP_sublist
  have hleave : ∀ {x : Ledger} {s k : ℕ}, (x.leave s k).tmo.Sublist x.tmo := by
    intro x s k
    dsimp only [Ledger.leave]
    split
    · exact List.eraseP_sublist
    · exact List.Sublist.refl _
  have hnext : b.nextMsg ≤ b.nextMsg + 1 := Nat.le_succ _
  cases hmove with
  | arrive =>
    refine { h with arrived := fun d m hm => ?_ }
    have hd := h.arrived d
    dsimp only at hm ⊢
    grind [Function.update_apply, Ledger.Live]
  | split =>
    exact h.mono (Nat.le_add_right _ _) rfl rfl rfl (List.Sublist.refl _)
  | @send s k key kind closing unsent =>
    exact { h.time unsent.live.1 mode.timeout key s with }
  | @auth s c key bare times kind closing require auth =>
    have h1 : Blank (b.take true (some c) true bare) :=
      h.mono hnext rfl rfl rfl (List.Sublist.refl _)
    exact { (h1.time (m := b.nextMsg) (Nat.lt_succ_self _) mode.timeout key s).setRole
      (m := b.nextMsg) (Nat.lt_succ_self _) .auth with }
  | @select s key bare times kind closing connecting select =>
    have h1 : Blank (b.take true none true bare) := h.mono hnext rfl rfl rfl (List.Sublist.refl _)
    exact { (h1.time (m := b.nextMsg) (Nat.lt_succ_self _) mode.timeout key s).setRole
      (m := b.nextMsg) (Nat.lt_succ_self _) .select with }
  | @unforwarded k unsent =>
    exact { h with failed := fun m hm =>
      (Function.update_of_ne (unsent.live.1.trans_le hm).ne' _ _).trans (h.failed m hm) }
  | listen | make | lose | blame => exact h.mono hnext rfl rfl rfl (List.Sublist.refl _)
  | drop => exact h.mono le_rfl rfl rfl rfl (hput.trans hleave)
  | fail => exact h.mono le_rfl rfl rfl rfl hleave
  | answer => exact h.mono hnext rfl rfl rfl hleave
  | swallowReply => exact h.mono hnext rfl rfl rfl (hput.trans hleave)
  | finish | fragment | discard | put | expire =>
      exact h.mono le_rfl rfl rfl rfl List.eraseP_sublist
  | _ => exact { h with }

end Blank

theorem Waiting.move (hw : Waiting hold b) (hq : Queues b) (hl : Links b) (hb : Blank b)
    (hmove : Move mode hold b b') : Waiting hold b' := by
  refine ⟨fun m hm => ?_, fun c m hc => ?_⟩
  · have hf := hmove.fixed hq hl hw (.inl hm)
    exact hf.unsent (hw.held m hm)
  · rcases hmove.rmsg hc with ⟨hr, hk⟩ | ⟨hk, rfl, times, rfl⟩
    · have hf := hmove.fixed hq hl hw (.inr ⟨c, hr⟩)
      obtain ⟨hloose, hh, ha, hkind, ho, hfo⟩ := hw.reading c m hr
      exact ⟨hf.loose hloose, hh, fun d hd => ha d ((hf.arrived d).1 hd), hk hkind,
        hf.owner.trans ho, hf.fragOwner.trans hfo⟩
    · have hnew : ∀ d, b.nextMsg ∉ b.inQ d ∧ b.nextMsg ∉ b.outQ d := fun d =>
        ⟨fun hd => lt_irrefl _ (hq.lt_next (.inl hd)), fun hd => lt_irrefl _ (hq.lt_next (.inr hd))⟩
      refine ⟨⟨⟨⟨Nat.lt_succ_self _, hq.fresh _ le_rfl⟩, Function.update_self ..,
        Function.update_self ..,
        Function.update_self .., Function.update_self .., fun d => (hnew d).1,
        fun d hd => absurd hd (hnew d).2, fun e he => (hb.tmo e he).ne, hb.failed _ le_rfl,
        hb.role _ le_rfl, Function.update_self ..⟩, fun d => (hnew d).2⟩, ?_, ?_, hk,
        Function.update_self .., Function.update_self ..⟩
      · intro hh
        exact absurd (hw.held _ hh).live.1 (lt_irrefl _)
      · intro d hd
        exact absurd (hb.arrived d _ hd) (lt_irrefl _)

/-- What is on hold keeps what the parser found out about it. -/
theorem Move.fixed_parsed (hmove : Move mode hold b b') (hw : Waiting hold b) (hm : hold m) :
    b'.noreply m = b.noreply m ∧ b'.bare m = b.bare m := by
  have hu := hw.held m hm
  have hne : m ≠ b.nextMsg := hu.live.1.ne
  cases hmove with
  | idle bare fault awake keeps waits => exact ⟨rfl, waits m hm⟩
  | @parse c k noreply bare reading =>
    have hmk : m ≠ k := by
      rintro rfl
      exact (hw.reading c m reading).2.1 hm
    exact ⟨Function.update_of_ne hmk _ _, Function.update_of_ne hmk _ _⟩
  | @split c k n bare times seq loose apart =>
    have hmk : m ≠ k := by
      rintro rfl
      exact apart.1 hm
    have hids : ¬ b.nextMsg ≤ m := hu.live.1.not_ge
    simp [Ledger.split, hids, hmk]
  | listen | make | auth | select | answer | swallowReply | lose | blame =>
    exact ⟨Function.update_of_ne hne _ _, Function.update_of_ne hne _ _⟩
  | _ => exact ⟨rfl, rfl⟩

end CacheProxy
