/-
**Handlers as moves: requests that are done.**

Here the handlers of the proxy meet the ledger.  `Goes` says that a handler is a sequence of moves,
as far as anyone needs to know: the invariants hold behind it, and what is on hold was left alone.

This module is about `req_done`, which marks the fragments of a request and puts its response
together, and about the callers that only ask it about the first request of a client.

Main definitions:

* `Fine`, `Goes` — the invariants of a state, and what a handler does to it;
* `Refilled` — contents of responses change.

Main results:

* `reqDone_spec`, `reqDoneFirst_goes`.
-/

import CacheProxy.LedgerSound
import CacheProxy.ProxyLedger

namespace CacheProxy

open Function (update)
open Ledger

variable {κ ι : Type}

/-! ### What a handler does -/

/-- The invariants hold in a state, apart from what `w` is at. -/
abbrev Fine (env : Env κ ι) (a : Assumed) (now : ℕ) (w : Work) (hold : ℕ → Prop) (p : Proxy κ) :
    Prop := Sound (modeOf env a now w) hold (ledger p)

/-- **A handler is a sequence of moves**: the invariants hold behind it, and what is on hold was
left alone. -/
structure Goes (env : Env κ ι) (a : Assumed) (now : ℕ) (w : Work) (hold : ℕ → Prop)
    (p p' : Proxy κ) : Prop where
  good : Fine env a now w hold p'
  kept : Kept hold (ledger p) (ledger p')

/-- More clients are busy. -/
def Work.also (w : Work) (c : ℕ) : Work := { w with busy := fun d => d = c ∨ w.busy d }

variable {env : Env κ ι} {a : Assumed} {now : ℕ} {w w' : Work} {hold : ℕ → Prop}
  {p p' p'' : Proxy κ} {c m o r : ℕ}

theorem Goes.refl (h : Fine env a now w hold p) : Goes env a now w hold p p :=
  ⟨h, Kept.refl hold _⟩

theorem Goes.trans (h : Goes env a now w hold p p') (h' : Goes env a now w' hold p' p'') :
    Goes env a now w' hold p p'' :=
  ⟨h'.good, h.kept.trans h'.kept⟩

theorem Goes.step (h : Goes env a now w hold p p')
    (hmove : Move (modeOf env a now w) hold (ledger p') (ledger p'')) :
    Goes env a now w hold p p'' :=
  ⟨h.good.move hmove, h.kept.trans (h.good.kept hmove)⟩

/-- A handler that the ledger does not see. -/
theorem Goes.same (h : Goes env a now w hold p p') (heq : ledger p'' = ledger p') :
    Goes env a now w hold p p'' :=
  ⟨by rw [Fine, heq]; exact h.good, by rw [heq]; exact h.kept⟩

/-- The work changes. -/
theorem Sound.retag {b : Ledger} (h : Sound (modeOf env a now w) hold b)
    (hs : Settled (modeOf env a now w') b) : Sound (modeOf env a now w') hold b where
  __ := h
  tree := { h.tree with }
  settled := hs
  clock := fun ht => { h.clock ht with }
  lines := fun hf =>
    { h.lines hf with
      opened := fun s hk hc => { (h.lines hf).opened s hk hc with }
      written := fun s => { (h.lines hf).written s with } }

theorem Settled.also {b : Ledger} (h : Settled (modeOf env a now w) b) (c : ℕ) :
    Settled (modeOf env a now (w.also c)) b where
  opened := h.opened
  smsg := h.smsg
  awake := fun d hk hr => (h.awake d hk hr).imp_right .inr

theorem Settled.not_also {b : Ledger} (h : Settled (modeOf env a now (w.also c)) b)
    (hc : b.kind c = .client → b.Ready c → b.awake c = true) :
    Settled (modeOf env a now w) b where
  opened := h.opened
  smsg := h.smsg
  awake := fun d hk hr => by
    rcases h.awake d hk hr with ha | rfl | hb
    · exact .inl ha
    · exact .inl (hc hk hr)
    · exact .inr hb

theorem Sound.also {b : Ledger} (h : Sound (modeOf env a now w) hold b) (c : ℕ) :
    Sound (modeOf env a now (w.also c)) hold b := h.retag (h.settled.also c)

theorem Goes.not_also (h : Goes env a now (w.also c) hold p p')
    (hc : (ledger p').kind c = .client → (ledger p').Ready c → (ledger p').awake c = true) :
    Goes env a now w hold p p' :=
  ⟨h.good.retag (h.good.settled.not_also hc), h.kept⟩

/-- No client is being closed. -/
theorem Sound.calm {b : Ledger} (h : Sound (modeOf env a now w) hold b)
    (hw : ∀ c, w.leaving c → b.kind c ≠ .client) : b.Calm := by
  intro c hk
  by_contra hc
  rcases h.settled.opened c (.inl (by simpa using hc)) with hk' | hl
  · simp [hk] at hk'
  · exact hw c hl hk

/-! ### Contents of responses -/

/-- **Contents of responses change**, and connections may be in error. -/
def Refilled (p p' : Proxy κ) : Prop :=
  ∃ bare awake : ℕ → Bool, (∀ m, (ledger p).request m = true → bare m = (ledger p).bare m) ∧
    (∀ c, (ledger p).awake c = true → awake c = true) ∧
    ledger p' = { ledger p with bare := bare, awake := awake }

namespace Refilled

theorem refl (p : Proxy κ) : Refilled p p :=
  ⟨(ledger p).bare, (ledger p).awake, fun _ _ => rfl, fun _ h => h, rfl⟩

theorem trans (h : Refilled p p') (h' : Refilled p' p'') : Refilled p p'' := by
  obtain ⟨bare, awake, h1, h2, heq⟩ := h
  obtain ⟨bare', awake', h1', h2', heq'⟩ := h'
  rw [heq] at h1' h2' heq'
  exact ⟨bare', awake', fun m hm => (h1' m hm).trans (h1 m hm), fun c hc => h2' c (h2 c hc), heq'⟩

theorem setContent (p : Proxy κ) (hr : (ledger p).request r = false)
    (f : Msg κ → Content κ) : Refilled p (p.setMsg r fun q => { q with con := f q }) := by
  refine ⟨_, (ledger p).awake, fun m hm => ?_, fun _ h => h, ledger_setContent p r f⟩
  refine Function.update_of_ne ?_ _ _
  rintro rfl
  simp [hr] at hm

theorem failOwner (p : Proxy κ) (r : ℕ) : Refilled p (failOwner p r) := by
  unfold CacheProxy.failOwner
  cases (p.msgs r).owner with
  | none => exact refl p
  | some c =>
    refine ⟨(ledger p).bare, _, fun _ _ => rfl, fun d hd => ?_, ledger_setFlags p c
      (f := fun k => { k with err := 1 }) ⟨rfl, rfl, rfl, rfl, rfl, rfl, rfl⟩⟩
    by_cases hdc : d = c
    · subst hdc
      simp
    · exact (Function.update_of_ne hdc _ _).trans hd

theorem setResponse (p : Proxy κ) (hr : (ledger p).request r = false) (con : Content κ) :
    Refilled p (setResponse p r con) := setContent p hr fun _ => con

theorem request_eq (h : Refilled p p') : (ledger p').request = (ledger p).request := by
  obtain ⟨_, _, -, -, heq⟩ := h
  rw [heq]

theorem peer_eq (h : Refilled p p') : (ledger p').peer = (ledger p).peer := by
  obtain ⟨_, _, -, -, heq⟩ := h
  rw [heq]

theorem gatherLoop (env : Env κ ι) (fs : List ℕ) (hr : (ledger p).request r = false)
    (hfs : ∀ k ∈ fs, ∀ s, (ledger p).peer k = some s → (ledger p).request s = false) :
    Refilled p (gatherLoop env r p fs).1 := by
  induction fs generalizing p with
  | nil => exact refl p
  | cons k fs ih =>
    unfold CacheProxy.gatherLoop
    cases hk : (p.msgs k).peer with
    | none => exact refl p
    | some s =>
      dsimp only
      cases env.copyBulk p.nextMbuf (p.msgs r).con (p.msgs s).con with
      | none => exact refl p
      | some x =>
        have hs : (ledger p).request s = false := hfs k List.mem_cons_self s hk
        have h1 := setContent p hr fun _ => x.1
        have h2 := h1.trans (setContent (r := s) _ (by rw [h1.request_eq]; exact hs) fun _ => x.2)
        have h3 : Refilled p { (p.setMsg r fun m => { m with con := x.1 }).setMsg s fun m =>
            { m with con := x.2 } with nextMbuf := p.nextMbuf + 1 } := h2
        refine h3.trans (ih ?_ ?_)
        · exact (congrFun h3.request_eq r).trans hr
        · intro j hj t ht
          refine (congrFun h3.request_eq t).trans (hfs j (List.mem_cons_of_mem k hj) t ?_)
          exact (congrFun h3.peer_eq j).symm.trans ht

theorem coalesceInto (env : Env κ ι) (q : Msg κ) (hr : (ledger p).request r = false)
    (hfs : ∀ k ∈ q.fragSeq, ∀ s, (ledger p).peer k = some s → (ledger p).request s = false) :
    Refilled p (coalesceInto env p q r) := by
  unfold CacheProxy.coalesceInto
  split
  · split
    · exact failOwner p r
    · exact refl p
  · cases env.coalesceHead p.nextMbuf q.con (p.msgs r).con with
    | none => exact failOwner p r
    | some con =>
      have h1 := setResponse p hr con
      have h2 : Refilled p (if env.gathers q.con.regs then
          CacheProxy.gatherLoop env r (CacheProxy.setResponse p r con) q.fragSeq
          else (CacheProxy.setResponse p r con, true)).1 := by
        split
        · refine h1.trans (gatherLoop env q.fragSeq (by rw [h1.request_eq]; exact hr) ?_)
          rw [h1.request_eq, h1.peer_eq]
          exact hfs
        · exact h1
      dsimp only
      generalize (if env.gathers q.con.regs = true then
        CacheProxy.gatherLoop env r (CacheProxy.setResponse p r con) q.fragSeq
        else (CacheProxy.setResponse p r con, true)) = g at h2 ⊢
      split
      · exact h2.trans (setResponse _ ((congrFun h2.request_eq r).trans hr) _)
      · exact h2.trans (failOwner _ r)

/-- The response of a request that has fragments is put together. -/
theorem postCoalesce (h : Fine env a now w hold p) (ho : (ledger p).fragOwner o = some o) :
    Refilled p (postCoalesce env p o) := by
  unfold CacheProxy.postCoalesce
  have hreq : ∀ k s, (ledger p).fragOwner k = some o → (ledger p).peer k = some s →
      (ledger p).request s = false := by
    intro k s hk hs
    have := (h.links.pair k s (h.links.alive k s hs) hs).2.2
    rwa [h.places.request k o hk] at this
  cases hp : (p.msgs o).peer with
  | none =>
    dsimp only [Proxy.observe]
    rw [hp]
    exact refl p
  | some r =>
    dsimp only [Proxy.observe]
    rw [hp]
    have h1 : Refilled p (p.observe fun h =>
        { h with coalesced := update h.coalesced o (h.coalesced o + 1) }) := refl p
    refine h1.trans (coalesceInto env _ (hreq o r ho hp) fun k hk s hs => ?_)
    have hmem : k ∈ (ledger p).frags o := h.places.seq o k hk
    exact hreq k s (h.groups.member o k hmem).1 hs

end Refilled

/-- Contents of responses are not what requests in queues depend on. -/
theorem Goes.refill (h : Goes env a now w hold p p') (hr : Refilled p' p'') :
    Goes env a now w hold p p'' := by
  obtain ⟨bare, awake, h1, h2, heq⟩ := hr
  refine h.step ?_
  rw [heq]
  refine Move.idle bare (ledger p').fault awake (fun s m hm => h1 m ?_) (fun m hm => h1 m ?_)
    (fun _ h => h) (fun _ h => .inl h) fun c _ => h2 c
  · have hs : (ledger p').kind s = .server := by
      by_contra hs
      simp [h.good.queues.inEmpty s hs] at hm
    exact (h.good.queues.server s m ⟨hs, .inl hm⟩).2.1
  · exact (h.good.waiting.held m hm).request

/-! ### `req_done` -/

/-- The neighbours of a fragmented request are all done. -/
theorem Sound.all_done {b : Ledger} {mode : Mode} (h : Sound mode hold b) (queued : b.InClient c m)
    (part : b.fragId m ≠ 0) (done : b.done m = true) :
    (∀ k ∈ m :: b.neighbours c m, b.done k = true) ↔
      ∀ k ∈ b.outQ c, b.fragId k = b.fragId m → b.done k = true := by
  have hmem : ∀ k, k ∈ b.neighbours c m ↔ k ∈ b.outQ c ∧ k ≠ m ∧ b.fragId k = b.fragId m := fun k =>
    mem_around (h.parts.grouped c queued.1) (h.queues.nodup c).of_append_right queued.2 part
  constructor
  · intro hall k hk hid
    by_cases hkm : k = m
    · exact hkm ▸ done
    · exact hall k (List.mem_cons_of_mem m ((hmem k).2 ⟨hk, hkm, hid⟩))
  · intro hall k hk
    rcases List.mem_cons.1 hk with rfl | hk
    · exact done
    · obtain ⟨h1, -, h3⟩ := (hmem k).1 hk
      exact hall k h1 h3

/-- **`req_done`**: the flag says whether the request and its fragments are done, and if so they
are marked; only contents of responses change otherwise. -/
theorem reqDone_spec (h : Fine env a now w hold p) (queued : (ledger p).InClient c m)
    (calm : (ledger p).Calm) (busy : w.busy c)
    (own : (ledger p).fragOwner m = none ∨ (ledger p).fragOwner m = some m ∨
      (ledger p).fdone m = true) :
    Goes env a now w hold p (reqDone env p c m).1 ∧
      ((reqDone env p c m).2 = true ↔ (ledger p).Over c m) ∧
      ((reqDone env p c m).2 = false → (reqDone env p c m).1 = p) ∧
      ∃ (fdone bare awake : ℕ → Bool) (sound : Bool), ledger (reqDone env p c m).1 =
          { ledger p with fdone := fdone, bare := bare, awake := awake, sound := sound } ∧
        (∀ k, (ledger p).fdone k = true → fdone k = true) ∧
        (∀ d, (ledger p).awake d = true → awake d = true) ∧
        ((reqDone env p c m).2 = true → (ledger p).fragId m = 0 ∨ fdone m = true) := by
  -- where nothing changes it is enough to look at the flag
  have hsame : ∀ flag : Bool, (flag = true → (ledger p).fragId m = 0 ∨ (ledger p).fdone m = true) →
      ∃ (fdone bare awake : ℕ → Bool) (sound : Bool), ledger p =
        { ledger p with fdone := fdone, bare := bare, awake := awake, sound := sound } ∧
        (∀ k, (ledger p).fdone k = true → fdone k = true) ∧
        (∀ d, (ledger p).awake d = true → awake d = true) ∧
        (flag = true → (ledger p).fragId m = 0 ∨ fdone m = true) := fun _ hflag =>
    ⟨_, _, _, _, rfl, fun _ h => h, fun _ h => h, hflag⟩
  unfold reqDone
  dsimp only
  by_cases hdone : (p.msgs m).done = true
  swap
  · rw [if_pos (by simpa using hdone)]
    exact ⟨Goes.refl h, ⟨by simp, fun ho => absurd ho.1 hdone⟩, fun _ => rfl, hsame false (by simp)⟩
  rw [if_neg (by simpa using hdone)]
  by_cases hid : (p.msgs m).fragId = 0
  · rw [if_pos hid]
    exact ⟨Goes.refl h, ⟨fun _ => ⟨hdone, .inl hid⟩, fun _ => rfl⟩, by simp,
      hsame true fun _ => .inl hid⟩
  rw [if_neg hid]
  by_cases hf : (p.msgs m).fdone = true
  · rw [if_pos hf]
    exact ⟨Goes.refl h, ⟨fun _ => ⟨hdone, .inr (.inl hf)⟩, fun _ => rfl⟩, by simp,
      hsame true fun _ => .inr hf⟩
  rw [if_neg hf]
  have hover : (ledger p).Over c m ↔ (ledger p).nfrag m ≤ (ledger p).nfragDone m ∧
      ∀ k ∈ (ledger p).outQ c, (ledger p).fragId k = (ledger p).fragId m →
        (ledger p).done k = true :=
    ⟨fun ho => (ho.2.resolve_left hid).resolve_left hf, fun ho => ⟨hdone, .inr (.inr ho)⟩⟩
  by_cases hn : (p.msgs m).nfragDone < (p.msgs m).nfrag
  · rw [if_pos hn]
    refine ⟨Goes.refl h, ⟨by simp, fun ho => ?_⟩, fun _ => rfl, hsame false (by simp)⟩
    exact absurd (hover.1 ho).1 (not_le.2 hn)
  rw [if_neg hn]
  have hall := h.all_done queued hid hdone
  by_cases hany : ((neighbours p c m).any fun k => !(p.msgs k).done) = true
  · rw [if_pos hany]
    refine ⟨Goes.refl h, ⟨by simp, fun ho => ?_⟩, fun _ => rfl, hsame false (by simp)⟩
    obtain ⟨k, hk, hkd⟩ := List.any_eq_true.1 hany
    have := hall.2 (hover.1 ho).2 k (List.mem_cons_of_mem m hk)
    simp [show (p.msgs k).done = true from this] at hkd
  rw [if_neg hany]
  have hnbrs : ∀ k ∈ m :: (ledger p).neighbours c m, (ledger p).done k = true := by
    intro k hk
    rcases List.mem_cons.1 hk with rfl | hk
    · exact hdone
    · by_contra hkd
      exact hany (List.any_eq_true.2 ⟨k, hk, by simpa [ledger] using hkd⟩)
  have hnone : (ledger p).fragOwner m ≠ none := fun ho => hid ((h.groups.zero m).2 ho)
  have ho : (p.msgs m).fragOwner = some m := by
    rcases own with ho | ho | ho
    · exact absurd ho hnone
    · exact ho
    · exact absurd ho hf
  rw [ho]
  dsimp only
  -- the request and its fragments are marked
  have hmark : ledger (noteDeref (markDone p (m :: neighbours p c m)) m m) =
      { ledger p with
        fdone := fun k => if k ∈ m :: (ledger p).neighbours c m then true else (ledger p).fdone k
        sound := (ledger p).sound && (ledger p).ownerQueued m m } := by
    rw [ledger_noteDeref, ledger_markDone]
    rfl
  have hmove : Move (modeOf env a now w) hold (ledger p)
      (ledger (noteDeref (markDone p (m :: neighbours p c m)) m m)) := by
    rw [hmark]
    exact Move.mark queued ho hnbrs (by simpa [ledger] using hf) (not_lt.1 hn) calm busy
  have h1 := (Goes.refl h).step hmove
  have hrefill := Refilled.postCoalesce (o := m) h1.good (by rw [hmark]; exact ho)
  have h2 := h1.refill hrefill
  obtain ⟨bare', awake', -, hwake, heq⟩ := hrefill
  rw [hmark] at hwake heq
  refine ⟨h2, ⟨fun _ => hover.2 ⟨not_lt.1 hn, hall.1 hnbrs⟩, fun _ =>
    rfl⟩, by simp, _, bare', awake', _,
    heq, fun k hk => ?_, hwake, fun _ => .inr (if_pos List.mem_cons_self)⟩
  dsimp only
  split
  · rfl
  · exact hk

/-- A request that is done, and marked if it is fragmented, is not looked at again. -/
theorem reqDone_over (done : (ledger p).done m = true)
    (part : (ledger p).fragId m = 0 ∨ (ledger p).fdone m = true) :
    reqDone env p c m = (p, true) := by
  unfold reqDone
  dsimp only
  rw [if_neg (by simpa [ledger] using done)]
  split
  · rfl
  · rename_i hid
    exact if_pos (part.resolve_left hid)

/-- The first request of a client is not a fragment that is not marked. -/
theorem Sound.head_own {b : Ledger} {mode : Mode} (h : Sound mode hold b)
    (kind : b.kind c = .client)
    (closing : b.closing c = false) {rest : List ℕ} (hq : b.outQ c = m :: rest) :
    b.fragOwner m = none ∨ b.fragOwner m = some m ∨ b.fdone m = true := by
  cases ho : b.fragOwner m with
  | none => exact .inl rfl
  | some o =>
    by_cases hf : b.fdone m = true
    · exact .inr (.inr hf)
    · have hmem : m ∈ b.outQ c := by simp [hq]
      have hin := h.parts.behind c m o ⟨kind, hmem⟩ ho (by simpa using hf) closing
      have hfirst := h.parts.first c kind
      rw [hq] at hin hfirst
      rcases List.mem_cons.1 hin with rfl | hin
      · exact .inr (.inl rfl)
      · exact absurd ho ((List.pairwise_cons.1 hfirst).1 o hin)

/-- **The first request of a client is looked at**, and the client is not busy any more. -/
theorem reqDoneFirst_goes (h : Fine env a now (w.also c) hold p)
    (kind : (ledger p).kind c = .client)
    (calm : (ledger p).Calm) :
    Goes env a now w hold p (reqDoneFirst env p c) ∧
      ∃ (fdone bare awake : ℕ → Bool) (sound : Bool), ledger (reqDoneFirst env p c) =
        { ledger p with fdone := fdone, bare := bare, awake := awake, sound := sound } := by
  unfold reqDoneFirst
  cases hq : (p.outQ c).head? with
  | none =>
    refine ⟨(Goes.refl h).not_also fun _ hr => ?_, _, _, _, _, rfl⟩
    obtain ⟨m, rest, hm, -⟩ := hr
    simp [show p.outQ c = _ from hm] at hq
  | some m =>
    obtain ⟨rest, hout⟩ : ∃ rest, (ledger p).outQ c = m :: rest := by
      cases hl : p.outQ c with
      | nil => simp [hl] at hq
      | cons x xs =>
        rw [hl, List.head?_cons, Option.some.injEq] at hq
        exact ⟨xs, hq ▸ hl⟩
    have hmem : m ∈ (ledger p).outQ c := by simp [hout]
    obtain ⟨h1, hflag, hidle, fdone, bare, awake, sound, heq, -, -, -⟩ :=
      reqDone_spec h ⟨kind, hmem⟩ calm (.inl rfl) (h.head_own kind (calm c kind) hout)
    dsimp only
    split
    · rename_i hd
      have hadd := ledger_eventAddOut (reqDone env p c m).1 c
      have hmove : Move (modeOf env a now (w.also c)) hold (ledger (reqDone env p c m).1)
          (ledger (eventAddOut (reqDone env p c m).1 c)) := by
        rw [hadd]
        refine Move.idle _ _ _ (fun _ _ _ => rfl) (fun _ _ => rfl) (fun _ h => h)
          (fun _ h => .inl h)
          fun d _ hd => ?_
        by_cases hdc : d = c
        · exact hdc ▸ Function.update_self ..
        · exact (Function.update_of_ne hdc _ _).trans hd
      refine ⟨Goes.not_also (h1.step hmove) fun _ _ => ?_,
        fdone, bare, _, sound, hadd.trans (by rw [heq])⟩
      rw [hadd]
      exact Function.update_self ..
    · rename_i hd
      refine ⟨h1.not_also fun _ hr => absurd ?_ hd, fdone, bare, awake, sound, heq⟩
      rw [hidle (by simpa using hd)] at hr
      obtain ⟨k, rest', hk, hover⟩ := hr
      rw [hout] at hk
      rw [(List.cons.inj hk).1] at hflag ⊢
      exact hflag.2 hover

end CacheProxy
