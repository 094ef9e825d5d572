/-
**Handlers as moves: sending to a server.**

The requests that `msg_send_chain` collects on a server are the first ones of its in-queue.  Behind
the write those that were sent go to the out-queue, or are given back if they have no reply, from
the front; behind a request that was sent in part only requests of recorded length zero go.

Main definitions:

* `Writing`, `Flushing` — the state of a server that sends, before and behind the write.

Main results:

* `serverSend_fine` — a server's socket takes bytes.
-/

import CacheProxy.RefineSend

namespace CacheProxy

open Function (update)
open Ledger

variable {κ ι : Type} {env : Env κ ι} {a : Assumed} {now : ℕ} {w : Work}
  {p p' : Proxy κ} {b b' : Ledger} {s m n : ℕ} {l ms rest : List ℕ}

/-- The work of a server that sends. -/
def serverWork (s : ℕ) : Work := { sending := (· = s) }

/-- **The state of a server that sends**: the requests `ms` are the first ones to be sent. -/
structure Writing (env : Env κ ι) (a : Assumed) (now s : ℕ) (p : Proxy κ) (ms rest : List ℕ) :
    Prop where
  fine : Fine env a now (serverWork s) (fun _ => False) p
  kind : (ledger p).kind s = .server
  connecting : (ledger p).connecting s = false
  inQ : (ledger p).inQ s = ms ++ rest

/-- The state of a server between two rounds of sending. -/
structure Idle (env : Env κ ι) (a : Assumed) (now s : ℕ) (p : Proxy κ) : Prop where
  fine : Fine env a now (serverWork s) (fun _ => False) p
  kind : (ledger p).kind s = .server
  smsg : (ledger p).smsg s = none

theorem closing_of_serverWork (h : Fine env a now (serverWork s) (fun _ => False) p)
    (hk : (ledger p).kind s = .server) : (ledger p).closing s = false := by
  by_contra hc
  rcases h.settled.opened s (.inl (by simpa using hc)) with hk' | hl
  · simp [hk] at hk'
  · exact hl

/-- What only says whether a server is in error or waits for its socket. -/
theorem Fine.serverAwake (h : Fine env a now w (fun _ => False) p)
    (hk : (ledger p).kind s = .server) {v : Bool}
    (heq : ledger p' = { ledger p with awake := update (ledger p).awake s v }) :
    Fine env a now w (fun _ => False) p' := by
  rw [Fine, heq]
  refine h.move (Move.idle _ _ _ (fun _ _ _ => rfl) (fun _ hf => hf.elim) (fun _ h => h)
    (fun _ h => .inl h) fun d hd ha => ?_)
  have hds : d ≠ s := by
    rintro rfl
    simp [hk] at hd
  exact (Function.update_of_ne hds _ _).trans ha

/-! ### The next request -/

/-- **`server_connected`**: the request to select a database is the first one. -/
theorem serverConnected_fine (full : a.ample → env.Full)
    (h : Fine env a now (serverWork s) (fun _ => False) p) (kind : (ledger p).kind s = .server)
    (connecting : (ledger p).connecting s = true) :
    Fine env a now (serverWork s) (fun _ => False) (serverConnected env now p s) ∧
      (ledger (serverConnected env now p s)).kind = (ledger p).kind ∧
      (ledger (serverConnected env now p s)).smsg = (ledger p).smsg ∧
      (ledger (serverConnected env now p s)).connecting s = false := by
  cases hs : env.select with
  | none =>
    have heq := ledger_serverConnected_none env now p s hs
    refine ⟨?_, ?_, ?_, ?_⟩
    · rw [Fine, heq]
      exact h.move (Move.established kind (by simp [modeOf, hs]))
    all_goals rw [heq]
    exact Function.update_self ..
  | some con =>
    have heq := ledger_serverConnected_some env now p s hs
    refine ⟨?_, ?_, ?_, ?_⟩
    · rw [Fine, heq]
      refine h.move (Move.select _ _ _ kind (closing_of_serverWork h kind) connecting
        (by simp [modeOf, hs]) fun hf => ?_)
      have hlen : con.mlen ≠ 0 := (hf.elim full id).2 con (by simp [hs])
      simpa using hlen
    all_goals rw [heq]
    · rfl
    · rfl
    · exact Function.update_self ..

/-- **The first request.** -/
theorem reqSendNext_first (full : a.ample → env.Full) (h : Idle env a now s p) :
    ((reqSendNext env now s p).2 = none → Idle env a now s (reqSendNext env now s p).1) ∧
    (∀ m, (reqSendNext env now s p).2 = some m →
      (∃ rest, Writing env a now s (reqSendNext env now s p).1 [m] rest) ∧
      (ledger (reqSendNext env now s p).1).smsg s = some m) := by
  have h1 : Fine env a now (serverWork s) (fun _ => False)
        (if (p.conns s).connecting then serverConnected env now p s else p) ∧
      (ledger (if (p.conns s).connecting then serverConnected env now p s else p)).kind s =
        .server ∧
      (ledger (if (p.conns s).connecting then serverConnected env now p s else p)).smsg s = none ∧
      (ledger (if (p.conns s).connecting then serverConnected env now p s else p)).connecting s =
        false := by
    split
    · rename_i hc
      obtain ⟨h1, hk, hs, hc'⟩ := serverConnected_fine full h.fine h.kind hc
      exact ⟨h1, by rw [hk]; exact h.kind, by rw [hs]; exact h.smsg, hc'⟩
    · rename_i hc
      exact ⟨h.fine, h.kind, h.smsg, eq_false_of_ne_true hc⟩
  unfold reqSendNext
  dsimp only
  generalize (if (p.conns s).connecting = true then serverConnected env now p s else p) = p₁ at h1 ⊢
  obtain ⟨h1, hk, hs, hc⟩ := h1
  cases hq : (ledger p₁).inQ s with
  | nil =>
    rw [show p₁.inQ s = [] from hq]
    dsimp only [List.head?_nil]
    have hdel := ledger_eventDelOut p₁ s
    refine ⟨fun _ => ⟨h1.serverAwake hk hdel, ?_, ?_⟩, by simp⟩
    all_goals rw [hdel]
    · exact hk
    · exact hs
  | cons first rest =>
    rw [show p₁.inQ s = first :: rest from hq]
    dsimp only [List.head?_cons]
    rw [show (p₁.conns s).smsg = none from hs]
    dsimp only
    have hset := ledger_setSmsg p₁ s (some first)
    refine ⟨by simp, fun m hm => ?_⟩
    obtain rfl := Option.some.inj hm
    refine ⟨⟨rest, (setSmsg_goes h1 _ (.inr rfl)).good, ?_, ?_, ?_⟩, ?_⟩
    all_goals rw [hset]
    · exact hk
    · exact hc
    · exact hq
    · exact Function.update_self ..

/-- **The next request.** -/
theorem reqSendNext_next (h : Writing env a now s p (ms ++ [m]) rest)
    (hsm : (ledger p).smsg s = some m) :
    ((reqSendNext env now s p).2 = none →
      Writing env a now s (reqSendNext env now s p).1 (ms ++ [m]) rest) ∧
    (∀ m', (reqSendNext env now s p).2 = some m' →
      (∃ rest', Writing env a now s (reqSendNext env now s p).1 (ms ++ [m] ++ [m']) rest') ∧
      (ledger (reqSendNext env now s p).1).smsg s = some m') := by
  have hin : p.inQ s = ms ++ m :: rest := by
    have : p.inQ s = ms ++ [m] ++ rest := h.inQ
    simp [this]
  have hnodup := (h.fine.queues.nodup s).of_append_left
  have hsucc : successor (p.inQ s) m = rest.head? := by
    rw [show (ledger p).inQ s = ms ++ m :: rest from hin] at hnodup
    rw [hin]
    exact successor_eq hnodup
  obtain ⟨first, hfirst⟩ : ∃ first, (p.inQ s).head? = some first := by
    rw [hin]
    cases ms with
    | nil => exact ⟨m, rfl⟩
    | cons x => exact ⟨x, rfl⟩
  unfold reqSendNext
  rw [if_neg (by simp [show (p.conns s).connecting = false from h.connecting])]
  dsimp only
  rw [hfirst, show (p.conns s).smsg = some m from hsm]
  dsimp only
  rw [hsucc]
  have hset := ledger_setSmsg p s rest.head?
  have hw : Writing env a now s (p.setConn s fun k => { k with smsg := rest.head? }) (ms ++ [m])
      rest := by
    refine ⟨(setSmsg_goes h.fine _ (.inr rfl)).good, ?_, ?_, ?_⟩
    all_goals rw [hset]
    · exact h.kind
    · exact h.connecting
    · exact h.inQ
  refine ⟨fun _ => hw, fun m' hm' => ⟨?_, ?_⟩⟩
  · cases rest with
    | nil => simp at hm'
    | cons x xs =>
      rw [List.head?_cons, Option.some.injEq] at hm'
      subst hm'
      exact ⟨xs, { hw with inQ := hw.inQ.trans (by simp) }⟩
  · rw [hset]
    exact (Function.update_self ..).trans hm'

/-! ### Behind the write -/

/-- **The state of a server behind the write**: the requests `l` stay, the requests `ms` are still
to be looked at. -/
structure Flushing (env : Env κ ι) (a : Assumed) (now s : ℕ) (p : Proxy κ) (l ms rest : List ℕ) :
    Prop where
  fine : Fine env a now (serverWork s) (fun _ => False) p
  kind : (ledger p).kind s = .server
  connecting : (ledger p).connecting s = false
  smsg : (ledger p).smsg s = none
  inQ : (ledger p).inQ s = l ++ (ms ++ rest)

/-- The ledger is all that is looked at. -/
theorem Flushing.same (h : Flushing env a now s p l ms rest) (heq : ledger p' = ledger p) :
    Flushing env a now s p' l ms rest := by
  refine ⟨?_, ?_, ?_, ?_, ?_⟩
  · rw [Fine, heq]
    exact h.fine
  all_goals rw [heq]
  · exact h.kind
  · exact h.connecting
  · exact h.smsg
  · exact h.inQ

/-- A request without reply is given back when it has left the queue. -/
theorem Flushing.put (h : Flushing env a now s p l ms rest) (live : (ledger p).Live m)
    (request : (ledger p).request m = true) (rmsg : ∀ c, (ledger p).rmsg c ≠ some m)
    (peer : (ledger p).peer m = none) (inQ : ∀ c, m ∉ (ledger p).inQ c)
    (outQ : ∀ c, m ∉ (ledger p).outQ c) :
    Flushing env a now s (reqPut now p .unanswered m) l ms rest := by
  have hput := ledger_reqPut now p m .unanswered
  refine ⟨?_, ?_, ?_, ?_, ?_⟩
  · rw [Fine, hput]
    exact h.fine.move (Move.put .unanswered live request ⟨id, rmsg⟩ peer inQ outQ (by simp))
  all_goals rw [hput]
  · exact h.kind
  · exact h.connecting
  · exact h.smsg
  · exact h.inQ

/-- A request leaves the in-queue: what is left to be known for one without reply. -/
theorem reqSendDone_flushing {q : Proxy κ} (h : Flushing env a now s p l (m :: ms) rest)
    (hq : Flushing env a now s (moveOut q s m) l ms rest)
    (hmsg : (q.msgs m).noreply = (ledger p).noreply m)
    (hlive : (ledger (moveOut q s m)).Live m ↔ (ledger p).Live m)
    (hreq : (ledger (moveOut q s m)).request = (ledger p).request)
    (hpeer : (ledger (moveOut q s m)).peer = (ledger p).peer)
    (hrmsg : (ledger (moveOut q s m)).rmsg = (ledger p).rmsg)
    (hin : ∀ t, t ≠ s → (ledger (moveOut q s m)).inQ t = (ledger p).inQ t)
    (hout : (ledger p).noreply m = true → (ledger (moveOut q s m)).outQ = (ledger p).outQ) :
    Flushing env a now s (reqSendDone now s q m) l ms rest := by
  have hmem : m ∈ (ledger p).inQ s := by simp [h.inQ]
  have queued : (ledger p).InServer s m := ⟨h.kind, .inl hmem⟩
  obtain ⟨live, request, -, peer⟩ := h.fine.queues.server s m queued
  have hdone : reqSendDone now s q m =
      if (q.msgs m).noreply then reqPut now (moveOut q s m) .unanswered m else moveOut q s m := by
    have hsame : ((q.dequeueIn s m).msgs m).noreply = (q.msgs m).noreply := rfl
    unfold reqSendDone moveOut
    dsimp only
    rw [hsame]
    cases (q.msgs m).noreply <;> rfl
  rw [hdone]
  split
  swap
  · exact hq
  rename_i hn
  rw [hmsg] at hn
  have hserver : ∀ t, m ∈ (ledger p).inQ t → (ledger p).kind t = .server := fun t ht => by
    by_contra hk
    simp [h.fine.queues.inEmpty t hk] at ht
  refine hq.put (hlive.2 live) (by rw [hreq]; exact request) (fun c hc => ?_)
    (by rw [hpeer]; exact peer) (fun t ht => ?_) (fun t ht => ?_)
  · rw [hrmsg] at hc
    exact (h.fine.waiting.reading c m hc).1.1.inQ s hmem
  · by_cases hts : t = s
    · subst hts
      have hnodup := (h.fine.queues.nodup t).of_append_left
      rw [h.inQ] at hnodup
      rw [hq.inQ] at ht
      have hn := List.nodup_append.1 hnodup
      rcases List.mem_append.1 ht with ht | ht
      · exact hn.2.2 m ht m (by simp) rfl
      · exact (List.nodup_cons.1 hn.2.1).1 ht
    · rw [hin t hts] at ht
      exact hts (h.fine.queues.unique t s m ⟨hserver t ht, .inl ht⟩ queued)
  · rw [hout hn] at ht
    by_cases hk : (ledger p).kind t = .server
    · have hts := h.fine.queues.unique t s m ⟨hk, .inr ht⟩ queued
      rw [hts] at ht
      simp [h.fine.queues.awaited s m h.kind ht] at hn
    · by_cases hkc : (ledger p).kind t = .client
      · exact h.fine.queues.apart s t m queued hn ⟨hkc, ht⟩
      · simp [h.fine.queues.outEmpty t hk hkc] at ht

/-- The in-queue without the request that leaves it. -/
theorem Flushing.erase (h : Flushing env a now s p l (m :: ms) rest) :
    ((ledger p).inQ s).erase m = l ++ (ms ++ rest) := by
  have hnodup := (h.fine.queues.nodup s).of_append_left
  rw [h.inQ] at hnodup ⊢
  have hml : m ∉ l := fun hl => (List.nodup_append.1 hnodup).2.2 m hl m (by simp) rfl
  rw [List.erase_append_right _ hml]
  simp

/-- **`req_send_done`** for a request of recorded length zero. -/
theorem reqSendDone_bare (h : Flushing env a now s p l (m :: ms) rest)
    (bare : (ledger p).bare m = true) :
    Flushing env a now s (reqSendDone now s p m) l ms rest := by
  have hmove := ledger_moveOut p s m
  have hmem : m ∈ (ledger p).inQ s := by simp [h.inQ]
  have hq : Flushing env a now s (moveOut p s m) l ms rest := by
    refine ⟨?_, ?_, ?_, ?_, ?_⟩
    · rw [Fine, hmove]
      exact h.fine.move (Move.skip h.kind hmem bare)
    all_goals rw [hmove]
    · exact h.kind
    · exact h.connecting
    · exact h.smsg
    · exact (Function.update_self ..).trans h.erase
  refine reqSendDone_flushing h hq rfl ?_ ?_ ?_ ?_ ?_ ?_
  all_goals rw [hmove]
  · exact Iff.rfl
  · exact fun t ht => Function.update_of_ne ht _ _
  · exact fun hn => if_pos hn

/-- **`req_send_done`** for a request that was sent completely. -/
theorem reqSendDone_sent (h : Flushing env a now s p [] (m :: ms) rest) :
    Flushing env a now s (reqSendDone now s (reqSent now s p m) m) [] ms rest := by
  have hfirst : (ledger p).inQ s = m :: (ms ++ rest) := h.inQ
  have hmove := ledger_moveOut_sent now p s m hfirst
  have hq : Flushing env a now s (moveOut (reqSent now s p m) s m) [] ms rest := by
    refine ⟨?_, ?_, ?_, ?_, ?_⟩
    · rw [Fine, hmove]
      exact h.fine.move (Move.sent h.kind (closing_of_serverWork h.fine h.kind) h.connecting hfirst)
    all_goals rw [hmove]
    · exact h.kind
    · exact h.connecting
    · exact h.smsg
    · exact Function.update_self ..
  have hnr : ((reqSent now s p m).msgs m).noreply = (ledger p).noreply m := by
    simp [reqSent, Proxy.note, Proxy.setMsg, ledger]
  refine reqSendDone_flushing h hq hnr ?_ ?_ ?_ ?_ ?_ ?_
  all_goals rw [hmove]
  · exact Iff.rfl
  · exact fun t ht => Function.update_of_ne ht _ _
  · exact fun hn => if_pos hn

theorem Writing.written (h : Writing env a now s p ms rest) (e : ℕ) :
    Flushing env a now s (p.setConn s fun k =>
      { k with smsg := none, err := if e = 0 then k.err else e }) [] ms rest := by
  have hset := ledger_setWritten p s (if e = 0 then (p.conns s).err else e)
  have heq : (p.setConn s fun k => { k with smsg := none, err := if e = 0 then k.err else e }) =
      p.setConn s fun k => { k with smsg := none, err := if e = 0 then (p.conns s).err else e } :=
        rfl
  have h1 := (setSmsg_goes (c := s) h.fine none (.inl rfl)).good
  have hnone := ledger_setSmsg p s none
  have h2 := h1.serverAwake (s := s) (by rw [hnone]; exact h.kind) (hset.trans (by rw [hnone]))
  rw [heq]
  refine ⟨h2, ?_, ?_, ?_, ?_⟩
  all_goals rw [hset]
  · exact h.kind
  · exact h.connecting
  · exact Function.update_self ..
  · exact h.inQ

/-- One round: requests are collected, written and moved on. -/
theorem msgSendChain_server (h : Writing env a now s p [m] rest)
    (hsm : (ledger p).smsg s = some m) (fuel : ℕ) (w : WriteResult) :
    Idle env a now s ((serverSender env now s).msgSendChain fuel p m w).1 := by
  have hchain := (serverSender env now s).chainMsgs_rule
    (fun _ p ms m _ _ => ∃ rest, Writing env a now s p (ms ++ [m]) rest ∧
      (ledger p).smsg s = some m)
    (fun p ms _ => ∃ rest, Writing env a now s p ms rest) ?_ ?_ ?_ ?_ fuel p [] m 0 0 ⟨rest, h, hsm⟩
  · obtain ⟨rest', hs⟩ := hchain
    unfold Sender.msgSendChain
    dsimp only
    have hfin := (serverSender env now s).finishMsgs_rule
      (fun p _ ms n => ∃ l rest, Flushing env a now s p l ms rest ∧ (n ≠ 0 → l = []))
      ?_ ?_ ?_ ?_ _ _ [] (w.nsent ((serverSender env now s).chainMsgs fuel p m 0 0 []).2.2)
      ⟨[], rest', hs.written (w.err ((serverSender env now s).chainMsgs fuel p m 0 0 []).2.2),
        fun _ => rfl⟩
    · obtain ⟨-, -, l, rest₁, hf, -⟩ := hfin
      exact ⟨hf.fine, hf.kind, hf.smsg⟩
    · rintro p l m ms ⟨l', rest, hf, -⟩ hlen
      refine ⟨l', rest, reqSendDone_bare hf ?_, fun hn => absurd rfl hn⟩
      simpa [ledger] using hlen
    · rintro p l m ms ⟨l', rest, hf, -⟩ -
      exact ⟨l' ++ [m], rest, { hf with inQ := by simp [hf.inQ] }, fun hn => absurd rfl hn⟩
    · rintro p l m ms n ⟨l', rest, hf, hl⟩ hn -
      obtain rfl := hl hn
      have hf' := hf.same (ledger_sendBytes (serverSender env now s) p m n)
      exact ⟨[], rest, reqSendDone_sent hf', fun _ => rfl⟩
    · rintro p l m ms n ⟨l', rest, hf, hl⟩ hn -
      have hf' := hf.same (ledger_sendBytes (serverSender env now s) p m n)
      exact ⟨l' ++ [m], rest, { hf' with inQ := by simp [hf'.inQ] }, fun hn => absurd rfl hn⟩
  · rintro p ms m iov nsend ⟨rest, hs, -⟩
    exact ⟨m :: rest, { hs with inQ := by simp [hs.inQ] }⟩
  · rintro fuel p ms m iov nsend ⟨rest, hs, -⟩ -
    exact ⟨rest, hs⟩
  · rintro fuel p ms m iov nsend ⟨rest, hs, hsm⟩ hn -
    exact ⟨rest, (reqSendNext_next hs hsm).1 hn⟩
  · rintro fuel p ms m iov nsend m' ⟨rest, hs, hsm⟩ hn -
    obtain ⟨⟨rest', hs'⟩, hsm'⟩ := (reqSendNext_next hs hsm).2 m' hn
    exact ⟨rest', hs', hsm'⟩

/-- **A server's socket takes bytes.** -/
theorem serverSend_fine (full : a.ample → env.Full) (h : Fine env a now {} (fun _ => False) p)
    (server : (ledger p).kind s = .server) (ws : List WriteResult) :
    Fine env a now {} (fun _ => False) (serverSend env now p s ws) ∧
      (ledger (serverSend env now p s ws)).kind s = .server := by
  have h0 : Idle env a now s p := by
    refine ⟨h.retag ⟨h.settled.opened, fun d hd => (h.settled.smsg d hd).elim, h.settled.awake⟩,
      server,
      ?_⟩
    by_contra hs
    exact h.settled.smsg s hs
  have h1 : Idle env a now s (serverSend env now p s ws) := by
    unfold serverSend
    refine (serverSender env now s).msgSend_rule _ (Idle env a now s) (Idle env a now s)
      (fun _ h => h) (fun p hp hn => (reqSendNext_first full hp).1 hn)
      (fun p m w hp hn => ?_) ws p h0
    obtain ⟨⟨rest, hs⟩, hsm⟩ := (reqSendNext_first full hp).2 m hn
    exact msgSendChain_server hs hsm _ w
  refine ⟨h1.fine.retag ⟨h1.fine.settled.opened, fun d hd => ?_, h1.fine.settled.awake⟩, h1.kind⟩
  have hds : d = s := h1.fine.settled.smsg d hd
  exact hd (hds ▸ h1.smsg)

end CacheProxy
