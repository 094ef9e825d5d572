/-
**The first requests on a connection to a server.**

The proxy puts requests of its own in front of those of clients: `AUTH`, when the first request is
forwarded, at the end of the queue, and `SELECT`, when the connection is established, at its head.
What was written to a server and what waits for it form a line, and the line begins with the
proxy's request if there is one, in two cases: if no database is selected, and if there is no
password and the connection was established later than it was opened.

Main definitions:

* `Led` — a line that begins with a request of the proxy;
* `Lines` — the lines of the servers.
-/

import CacheProxy.LedgerFrame

namespace CacheProxy

open Function (update)
open Ledger

/-! ### Lines -/

/-- The first one is of the role `r`, and the others are of clients. -/
def Led (role : ℕ → Role) (r : Role) (l : List ℕ) : Prop :=
  ∃ m rest, l = m :: rest ∧ role m = r ∧ ∀ k ∈ rest, role k = .client

section Led

variable {role role' : ℕ → Role} {r : Role} {l before : List ℕ} {k : ℕ}

theorem Led.congr (h : Led role r l) (hr : ∀ k ∈ l, role' k = role k) : Led role' r l := by
  obtain ⟨m, rest, rfl, hm, hrest⟩ := h
  exact ⟨m, rest, rfl, (hr m List.mem_cons_self).trans hm,
    fun k hk => (hr k (List.mem_cons_of_mem m hk)).trans (hrest k hk)⟩

theorem Led.concat (h : Led role r l) (hk : role k = .client) : Led role r (l ++ [k]) := by
  obtain ⟨m, rest, rfl, hm, hrest⟩ := h
  refine ⟨m, rest ++ [k], rfl, hm, fun j hj => ?_⟩
  rcases List.mem_append.1 hj with hj | hj
  · exact hrest j hj
  · exact List.mem_singleton.1 hj ▸ hk

/-- A request of a client is left out. -/
theorem Led.erase (h : Led role r (before ++ l)) (hr : r ≠ .client) (hk : role k = .client) :
    Led role r (before ++ l.erase k) := by
  obtain ⟨m, rest, heq, hm, hrest⟩ := h
  cases before with
  | nil =>
    rw [List.nil_append] at heq
    have hkm : m ≠ k := by
      rintro rfl
      exact hr (hm.symm.trans hk)
    refine ⟨m, rest.erase k, ?_, hm, fun j hj => hrest j (List.mem_of_mem_erase hj)⟩
    rw [List.nil_append, heq, List.erase_cons_tail (by simpa using hkm)]
  | cons x xs =>
    obtain ⟨rfl, rfl⟩ := List.cons.inj heq
    refine ⟨x, xs ++ l.erase k, rfl, hm, fun j hj => hrest j ?_⟩
    rcases List.mem_append.1 hj with hj | hj
    · exact List.mem_append_left _ hj
    · exact List.mem_append_right _ (List.mem_of_mem_erase hj)

/-- What was written of a line. -/
theorem Led.left (h : Led role r (before ++ l)) : before = [] ∨ Led role r before := by
  obtain ⟨m, rest, heq, hm, hrest⟩ := h
  cases before with
  | nil => exact .inl rfl
  | cons x xs =>
    obtain ⟨rfl, rfl⟩ := List.cons.inj heq
    exact .inr ⟨x, xs, rfl, hm, fun j hj => hrest j (List.mem_append_left _ hj)⟩

end Led

/-- The line of a server: what was written, and what waits. -/
def Ledger.line (b : Ledger) (s : ℕ) : List ℕ := b.sentTo s ++ b.inQ s

/-- **The line of an open server.** -/
structure Ledger.InLine (mode : Mode) (b : Ledger) (s : ℕ) : Prop where
  /-- a password and no database -/
  auth : mode.select = false → mode.requireAuth = true →
    b.line s = [] ∧ b.authenticated s = false ∨
      Led b.role .auth (b.line s) ∧ b.authenticated s = true
  /-- neither -/
  plain : mode.select = false → mode.requireAuth = false → ∀ k ∈ b.line s, b.role k = .client
  /-- a database and no password -/
  select : mode.select = true → mode.requireAuth = false → mode.late →
    b.connecting s = true ∧ b.sentTo s = [] ∧ (∀ k ∈ b.inQ s, b.role k = .client) ∨
      b.connecting s = false ∧ Led b.role .select (b.line s)

/-- **What was written to a server.** -/
structure Ledger.Written (mode : Mode) (b : Ledger) (s : ℕ) : Prop where
  auth : mode.select = false → mode.requireAuth = true →
    b.sentTo s = [] ∨ Led b.role .auth (b.sentTo s)
  plain : mode.select = false → mode.requireAuth = false → ∀ k ∈ b.sentTo s, b.role k = .client
  select : mode.select = true → mode.requireAuth = false → mode.late →
    b.sentTo s = [] ∨ Led b.role .select (b.sentTo s)

/-- **The lines of the servers.** -/
structure Lines (mode : Mode) (b : Ledger) : Prop where
  fresh : ∀ s, b.kind s = .unused → b.sentTo s = [] ∧ b.authenticated s = false
  known : ∀ s, ∀ m ∈ b.sentTo s, m < b.nextMsg
  own : ∀ s, ∀ m ∈ b.inQ s, b.role m ≠ .client → b.bare m = false
  opened : ∀ s, b.kind s = .server → b.closing s = false → b.InLine mode s
  written : ∀ s, b.Written mode s

variable {mode : Mode} {hold : ℕ → Prop} {b b' : Ledger} {c m s : ℕ}

theorem Ledger.InLine.written (h : b.InLine mode s) : b.Written mode s where
  auth := fun hs ha => by
    rcases h.auth hs ha with ⟨hl, -⟩ | ⟨hl, -⟩
    · exact .inl (List.append_eq_nil_iff.1 hl).1
    · exact hl.left
  plain := fun hs ha k hk => h.plain hs ha k (List.mem_append_left _ hk)
  select := fun hs ha hl => by
    rcases h.select hs ha hl with ⟨-, hl, -⟩ | ⟨-, hl⟩
    · exact .inl hl
    · exact hl.left

/-- A line with the same requests in the same state. -/
theorem Ledger.InLine.congr (h : b.InLine mode s) (sentTo : b'.sentTo s = b.sentTo s)
    (inQ : b'.inQ s = b.inQ s) (auth : b'.authenticated s = b.authenticated s)
    (connecting : b'.connecting s = b.connecting s)
    (role : ∀ k ∈ b.line s, b'.role k = b.role k) : b'.InLine mode s := by
  have hline : b'.line s = b.line s := by rw [Ledger.line, Ledger.line, sentTo, inQ]
  refine ⟨fun hs ha => ?_, fun hs ha k hk => ?_, fun hs ha hl => ?_⟩
  · rw [hline, auth]
    exact (h.auth hs ha).imp_right fun ⟨h1, h2⟩ => ⟨h1.congr role, h2⟩
  · rw [hline] at hk
    exact (role k hk).trans (h.plain hs ha k hk)
  · rw [hline, connecting, sentTo, inQ]
    refine (h.select hs ha hl).imp (fun ⟨h1, h2, h3⟩ => ⟨h1, h2, fun k hk => ?_⟩)
      fun ⟨h1, h2⟩ => ⟨h1, h2.congr role⟩
    exact (role k (List.mem_append_right _ hk)).trans (h3 k hk)

theorem Ledger.Written.congr (h : b.Written mode s) (sentTo : b'.sentTo s = b.sentTo s)
    (role : ∀ k ∈ b.sentTo s, b'.role k = b.role k) : b'.Written mode s := by
  refine ⟨fun hs ha => ?_, fun hs ha k hk => ?_, fun hs ha hl => ?_⟩
  · rw [sentTo]
    exact (h.auth hs ha).imp_right fun h1 => h1.congr role
  · rw [sentTo] at hk
    exact (role k hk).trans (h.plain hs ha k hk)
  · rw [sentTo]
    exact (h.select hs ha hl).imp_right fun h1 => h1.congr role

/-! ### Operations -/

namespace Lines

/-- Nothing changes that lines depend on. -/
theorem same (h : Lines mode b) (next : b.nextMsg ≤ b'.nextMsg) (kind : b'.kind = b.kind)
    (closing : b'.closing = b.closing) (sentTo : b'.sentTo = b.sentTo) (inQ : b'.inQ = b.inQ)
    (auth : b'.authenticated = b.authenticated) (connecting : b'.connecting = b.connecting)
    (role : b'.role = b.role)
    (bare : ∀ s, ∀ m ∈ b.inQ s, b'.bare m = b.bare m) : Lines mode b' where
  fresh := fun s hs => by
    rw [sentTo, auth]
    exact h.fresh s (kind ▸ hs)
  known := fun s m hm => (h.known s m (sentTo ▸ hm)).trans_le next
  own := fun s m hm hr => by
    rw [inQ] at hm
    rw [role] at hr
    exact (bare s m hm).trans (h.own s m hm hr)
  opened := fun s hk hc => (h.opened s (kind ▸ hk) (closing ▸ hc)).congr (congrFun sentTo s)
    (congrFun inQ s) (congrFun auth s) (congrFun connecting s) fun k _ => congrFun role k
  written := fun s => (h.written s).congr (congrFun sentTo s) fun k _ => congrFun role k

theorem take (h : Lines mode b) (hq : Queues b) (request : Bool) (owner : Option ℕ)
    (swallow bare : Bool) : Lines mode (b.take request owner swallow bare) :=
  h.same (Nat.le_succ _) rfl rfl rfl rfl rfl rfl rfl fun _ _ hm =>
    Function.update_of_ne (hq.lt_next (.inl hm)).ne _ _

/-- Requests leave the queues of a server that is being closed, or only the out-queue. -/
theorem leave (h : Lines mode b) (gone : b.closing s = true ∨ m ∉ b.inQ s) :
    Lines mode (b.leave s m) where
  fresh := h.fresh
  known := h.known
  own := fun t k hk => by
    refine h.own t k ?_
    dsimp only [Ledger.leave] at hk
    grind only [Function.update_apply, List.mem_of_mem_erase]
  opened := fun t hk hc => by
    refine (h.opened t hk hc).congr rfl ?_ rfl rfl fun _ _ => rfl
    by_cases hts : t = s
    · subst hts
      have hm := gone.resolve_left (by simp [show b.closing t = false from hc])
      exact (Function.update_self t _ _).trans (List.erase_of_not_mem hm)
    · exact Function.update_of_ne hts _ _
  written := fun s => (h.written s).congr rfl fun _ _ => rfl

/-- The queue of one server changes, and its line is as it should be. -/
theorem setLine (h : Lines mode b) (next : b.nextMsg ≤ b'.nextMsg) (kind : b'.kind = b.kind)
    (closing : b'.closing = b.closing) (sentTo : b'.sentTo = b.sentTo)
    (role : ∀ k, k < b.nextMsg → b'.role k = b.role k)
    (inQ : ∀ t, t ≠ s → b'.inQ t = b.inQ t)
    (flags : ∀ t, t ≠ s → b'.authenticated t = b.authenticated t ∧
      b'.connecting t = b.connecting t)
    (unused : b.kind s ≠ .unused) (hq : Queues b)
    (own : ∀ t, ∀ k ∈ b'.inQ t, b'.role k ≠ .client → b'.bare k = false)
    (line : b.closing s = false → b'.InLine mode s) : Lines mode b' where
  fresh := fun t ht => by
    rw [kind] at ht
    have hts : t ≠ s := by
      rintro rfl
      exact unused ht
    rw [sentTo, (flags t hts).1]
    exact h.fresh t ht
  known := fun t k hk => (h.known t k (sentTo ▸ hk)).trans_le next
  own := own
  opened := fun t hk hc => by
    rw [closing] at hc
    rw [kind] at hk
    by_cases hts : t = s
    · exact hts ▸ line (hts ▸ hc)
    · refine (h.opened t hk hc).congr (congrFun sentTo t) (inQ t hts) (flags t hts).1
        (flags t hts).2 fun k hk => role k ?_
      rcases List.mem_append.1 hk with hk | hk
      · exact h.known t k hk
      · exact hq.lt_next (.inl hk)
  written := fun t => (h.written t).congr (congrFun sentTo t) fun k hk => role k (h.known t k hk)

theorem move (h : Lines mode b) (hq : Queues b) (hw : Waiting hold b) (full : mode.full)
    (hmove : Move mode hold b b') : Lines mode b' := by
  cases hmove with
  | idle bare fault awake keeps =>
    exact h.same le_rfl rfl rfl rfl rfl rfl rfl rfl keeps
  | @connect c kind connecting awake unused either late =>
    obtain ⟨hsent, hauth⟩ := h.fresh c unused
    have hin := hq.inEmpty c (by simp [unused])
    refine { h with fresh := fun t ht => ?_, opened := fun t hk hc => ?_, written := fun t => ?_ }
    · have htc : t ≠ c := by
        rintro rfl
        rcases either with rfl | rfl <;> simp at ht
      exact h.fresh t ((Function.update_of_ne htc _ _).symm.trans ht)
    · by_cases htc : t = c
      · subst htc
        have hk' : kind = .server := (Function.update_self t _ _).symm.trans hk
        have hline : b.line t = [] := by rw [Ledger.line, hsent, hin, List.append_nil]
        refine ⟨fun _ _ => .inl ⟨hline, hauth⟩, fun _ _ k hkl => ?_, fun _ _ hl =>
          .inl ⟨?_, hsent, ?_⟩⟩
        · have : k ∈ b.line t := hkl
          simp [hline] at this
        · exact (Function.update_self t _ _).trans (late hl hk')
        · intro k hkl
          have : k ∈ b.inQ t := hkl
          simp [hin] at this
      · have hk' : b.kind t = .server := (Function.update_of_ne htc _ _).symm.trans hk
        exact (h.opened t hk' hc).congr rfl rfl rfl (Function.update_of_ne htc _ _) fun _ _ => rfl
    · exact (h.written t).congr rfl fun _ _ => rfl
  | @parse c m noreply bare reading =>
    refine h.same le_rfl rfl rfl rfl rfl rfl rfl rfl fun s k hk => Function.update_of_ne ?_ _ _
    rintro rfl
    exact (hw.reading c k reading).1.1.inQ s hk
  | @split c m n bare times seq loose =>
    refine h.same (Nat.le_add_right _ _) rfl rfl rfl rfl rfl rfl rfl fun s k hk => if_neg ?_
    rw [List.mem_cons, List.mem_range'_1]
    rintro (rfl | hmem)
    · exact loose.1.inQ s hk
    · exact hmem.1.not_gt (hq.lt_next (.inl hk))
  | @send s m key kind closing unsent apart home owner ample auth =>
    have hline : ({ b.time mode.timeout key s m with
        inQ := update b.inQ s (b.inQ s ++ [m]) } : Ledger).line s = b.line s ++ [m] := by
      simp [Ledger.line, Ledger.time]
    refine h.setLine (s := s) le_rfl rfl rfl rfl (fun _ _ => rfl)
      (fun t ht => Function.update_of_ne ht _ _) (fun _ _ => ⟨rfl, rfl⟩) (by simp [kind]) hq
      (fun t k hk hr => ?_) fun hc => ?_
    · have hkm : k ≠ m := by
        rintro rfl
        exact hr unsent.role
      refine h.own t k ?_ hr
      dsimp only at hk
      grind only [Function.update_apply, List.mem_append, List.mem_singleton]
    · obtain ⟨h1, h2, h3⟩ := h.opened s kind hc
      refine ⟨fun hs ha => .inr ⟨?_, auth ha⟩, fun hs ha k hk => ?_, fun hs ha hl => ?_⟩
      · rw [hline]
        rcases h1 hs ha with ⟨-, hn⟩ | ⟨hl, -⟩
        · simp [auth ha] at hn
        · exact hl.concat unsent.role
      · rw [hline] at hk
        rcases List.mem_append.1 hk with hk | hk
        · exact h2 hs ha k hk
        · exact List.mem_singleton.1 hk ▸ unsent.role
      · rw [hline]
        refine (h3 hs ha hl).imp (fun hh => ⟨hh.1, hh.2.1, fun k hk => ?_⟩)
          fun hh => ⟨hh.1, hh.2.concat unsent.role⟩
        have hk' : k ∈ b.inQ s ++ [m] := by simpa using hk
        rcases List.mem_append.1 hk' with hk | hk
        · exact hh.2.2 k hk
        · exact List.mem_singleton.1 hk ▸ unsent.role
  | @auth s c key bare times kind closing require auth ample =>
    refine h.setLine (s := s) (Nat.le_succ _) rfl rfl rfl
      (fun k hk => Function.update_of_ne hk.ne _ _) (fun t ht => Function.update_of_ne ht _ _)
      (fun t ht => ⟨Function.update_of_ne ht _ _, rfl⟩) (by simp [kind]) hq
      (fun t k hk hr => ?_) fun hc => ⟨fun hs ha => ?_, fun _ ha => ?_, fun _ ha => ?_⟩
    · by_cases hkn : k = b.nextMsg
      · subst hkn
        exact (Function.update_self ..).trans (ample (.inr full))
      · have hk' : k ∈ b.inQ t := by
          dsimp only [Ledger.start, Ledger.time, Ledger.take] at hk
          grind only [Function.update_apply, List.mem_append, List.mem_singleton]
        exact (Function.update_of_ne hkn _ _).trans
          (h.own t k hk' fun hrole => hr ((Function.update_of_ne hkn _ _).trans hrole))
    · obtain ⟨hl, -⟩ := ((h.opened s kind hc).auth hs ha).resolve_right (by simp [auth])
      obtain ⟨h1, h2⟩ := List.append_eq_nil_iff.1 hl
      refine .inr ⟨⟨b.nextMsg, [], ?_, Function.update_self .., by simp⟩, Function.update_self ..⟩
      simp [Ledger.line, Ledger.start, Ledger.time, Ledger.take, h1, h2]
    · simp [require] at ha
    · simp [require] at ha
  | @established s kind select =>
    refine h.setLine (s := s) le_rfl rfl rfl rfl (fun _ _ => rfl) (fun _ _ => rfl)
      (fun t ht => ⟨rfl, Function.update_of_ne ht _ _⟩) (by simp [kind]) hq h.own fun hc =>
      ⟨(h.opened s kind hc).auth, (h.opened s kind hc).plain, fun hs => ?_⟩
    simp [select] at hs
  | @select s key bare times kind closing connecting select ample =>
    refine h.setLine (s := s) (Nat.le_succ _) rfl rfl rfl
      (fun k hk => Function.update_of_ne hk.ne _ _) (fun t ht => Function.update_of_ne ht _ _)
      (fun t ht => ⟨rfl, Function.update_of_ne ht _ _⟩) (by simp [kind]) hq
      (fun t k hk hr => ?_) fun hc => ⟨fun hs => ?_, fun hs => ?_, fun hs ha hl => ?_⟩
    · by_cases hkn : k = b.nextMsg
      · subst hkn
        exact (Function.update_self ..).trans (ample (.inr full))
      · have hk' : k ∈ b.inQ t := by
          dsimp only [Ledger.start, Ledger.time, Ledger.take] at hk
          grind only [Function.update_apply, List.mem_cons]
        exact (Function.update_of_ne hkn _ _).trans
          (h.own t k hk' fun hrole => hr ((Function.update_of_ne hkn _ _).trans hrole))
    · simp [select] at hs
    · simp [select] at hs
    · obtain ⟨-, hsent, hin⟩ := ((h.opened s kind hc).select hs ha hl).resolve_right
        (by simp [connecting])
      refine .inr ⟨Function.update_self .., b.nextMsg, b.inQ s, ?_, Function.update_self ..,
        fun k hk => ?_⟩
      · simp [Ledger.line, Ledger.start, Ledger.time, Ledger.take, hsent]
      · exact (Function.update_of_ne (hq.lt_next (.inl hk)).ne _ _).trans (hin k hk)
  | @sent s m rest kind closing connecting first =>
    have hlt : m < b.nextMsg := hq.lt_next (c := s) (.inl (by simp [first]))
    have hnew : ({ b with
        inQ := update b.inQ s rest
        outQ := if b.noreply m then b.outQ else update b.outQ s (b.outQ s ++ [m])
        times := update b.times m { b.times m with sendServer := mode.now }
        sentTo := update b.sentTo s (b.sentTo s ++ [m])
        inbox := if b.noreply m then b.inbox
          else update b.inbox s (b.inbox s ++ [m]) } : Ledger).InLine mode s := by
      obtain ⟨h1, h2, h3⟩ := h.opened s kind closing
      have hline : (b.sentTo s ++ [m]) ++ rest = b.line s := by
        rw [Ledger.line, first, List.append_assoc, List.singleton_append]
      refine ⟨fun hs ha => ?_, fun hs ha k hk => ?_, fun hs ha hl => .inr ⟨connecting, ?_⟩⟩
      · simpa [Ledger.line, hline] using h1 hs ha
      · refine h2 hs ha k ?_
        rw [← hline]
        simpa [Ledger.line] using hk
      · have := ((h3 hs ha hl).resolve_left (by simp [connecting])).2
        rw [← hline] at this
        simpa [Ledger.line] using this
    refine ⟨fun t ht => ?_, fun t k hk => ?_, fun t k hk => h.own t k ?_, fun t hk hc => ?_,
      fun t => ?_⟩
    · have hts : t ≠ s := by
        rintro rfl
        simp [kind] at ht
      exact ⟨(Function.update_of_ne hts _ _).trans (h.fresh t ht).1, (h.fresh t ht).2⟩
    · have := h.known t k
      dsimp only at hk ⊢
      grind only [Function.update_apply, List.mem_append, List.mem_singleton]
    · dsimp only at hk
      grind only [Function.update_apply, List.mem_cons]
    · by_cases hts : t = s
      · exact hts ▸ hnew
      · exact (h.opened t hk hc).congr (Function.update_of_ne hts _ _)
          (Function.update_of_ne hts _ _) rfl rfl fun _ _ => rfl
    · by_cases hts : t = s
      · exact hts ▸ hnew.written
      · exact (h.written t).congr (Function.update_of_ne hts _ _) fun _ _ => rfl
  | @skip s m kind queued bare =>
    have hrole : b.role m = .client := by
      by_contra hr
      simp [h.own s m queued hr] at bare
    refine h.setLine (s := s) le_rfl rfl rfl rfl (fun _ _ => rfl)
      (fun t ht => Function.update_of_ne ht _ _) (fun _ _ => ⟨rfl, rfl⟩) (by simp [kind]) hq
      (fun t k hk => h.own t k ?_) fun hc => ?_
    · dsimp only at hk
      grind only [Function.update_apply, List.mem_of_mem_erase]
    · obtain ⟨h1, h2, h3⟩ := h.opened s kind hc
      refine ⟨fun hs ha => ?_, fun hs ha k hk => ?_, fun hs ha hl => ?_⟩
      · refine (h1 hs ha).imp (fun hh => ?_) fun hh => ⟨?_, hh.2⟩
        · obtain ⟨-, hl⟩ := List.append_eq_nil_iff.1 hh.1
          simp [hl] at queued
        · simpa [Ledger.line] using hh.1.erase (by simp) hrole
      · refine h2 hs ha k ?_
        have hk' : k ∈ b.sentTo s ++ (b.inQ s).erase m := by simpa [Ledger.line] using hk
        rcases List.mem_append.1 hk' with hk | hk
        · exact List.mem_append_left _ hk
        · exact List.mem_append_right _ (List.mem_of_mem_erase hk)
      · refine (h3 hs ha hl).imp (fun hh => ⟨hh.1, hh.2.1, fun k hk => ?_⟩) fun hh => ⟨hh.1, ?_⟩
        · have hk' : k ∈ (b.inQ s).erase m := by simpa using hk
          exact hh.2.2 k (List.mem_of_mem_erase hk')
        · simpa [Ledger.line] using hh.2.erase (by simp) hrole
  | @fail s m queued closing =>
    exact (h.leave (m := m) (.inl closing)).same le_rfl rfl rfl rfl rfl rfl rfl rfl fun _ _ _ => rfl
  | @drop s m queued closing =>
    exact (h.leave (m := m) (.inl closing)).same le_rfl rfl rfl rfl rfl rfl rfl rfl fun _ _ _ => rfl
  | @answer s m rest bare times kind closing mute first =>
    have hm : m ∉ b.inQ s := by
      have := hq.nodup s
      rw [first, List.nodup_append] at this
      exact fun hm => this.2.2 m hm m List.mem_cons_self rfl
    exact ((h.take hq false (some s) false bare).leave (m := m) (.inr hm)).same le_rfl rfl rfl rfl
      rfl rfl rfl rfl fun _ _ _ => rfl
  | @swallowReply s m rest bare times kind closing mute first =>
    have hm : m ∉ b.inQ s := by
      have := hq.nodup s
      rw [first, List.nodup_append] at this
      exact fun hm => this.2.2 m hm m List.mem_cons_self rfl
    exact ((h.take hq false (some s) false bare).leave (m := m) (.inr hm)).same le_rfl rfl rfl rfl
      rfl rfl rfl rfl fun _ _ _ => rfl
  | @listen | @make | @lose | @blame =>
    exact (h.take hq true none true true).same le_rfl rfl rfl rfl rfl rfl rfl rfl fun _ _ hm => by
      have := (hq.lt_next (.inl hm)).ne
      simp [Ledger.take, Ledger.start, Ledger.link, Ledger.reply, Ledger.free,
        Function.update_of_ne this]
  | @login c auth kind =>
    have hne : ∀ {t}, b.kind t ≠ .client → t ≠ c := by
      rintro t ht rfl
      exact ht kind
    refine ⟨fun t ht => ?_, h.known, h.own, fun t hk hc => ?_,
      fun t => (h.written t).congr rfl fun _ _ => rfl⟩
    · obtain ⟨h1, h2⟩ := h.fresh t ht
      exact ⟨h1, (Function.update_of_ne (hne (by simp [show b.kind t = _ from ht])) _ _).trans h2⟩
    · exact (h.opened t hk hc).congr rfl rfl
        (Function.update_of_ne (hne (by simp [show b.kind t = _ from hk])) _ _) rfl fun _ _ => rfl
  | @closing c =>
    refine ⟨h.fresh, h.known, h.own, fun t hk hc => ?_,
      fun t => (h.written t).congr rfl fun _ _ => rfl⟩
    have htc : t ≠ c := by
      rintro rfl
      simp at hc
    exact (h.opened t hk ((Function.update_of_ne htc _ _).symm.trans hc)).congr rfl rfl rfl rfl
      fun _ _ => rfl
  | @shut c =>
    have hne : ∀ {t : ℕ} {k : ConnKind}, k ≠ .closed → update b.kind c .closed t = k → t ≠ c := by
      rintro t k hk ht rfl
      exact hk ((Function.update_self t _ _).symm.trans ht).symm
    refine ⟨fun t ht => h.fresh t ?_, h.known, h.own, fun t hk hc => ?_,
      fun t => (h.written t).congr rfl fun _ _ => rfl⟩
    · exact (Function.update_of_ne (hne (by simp) ht) _ _).symm.trans ht
    · have hk' := (Function.update_of_ne (hne (by simp) hk) _ _).symm.trans hk
      exact (h.opened t hk' hc).congr rfl rfl rfl rfl fun _ _ => rfl
  | _ => exact h.same le_rfl rfl rfl rfl rfl rfl rfl rfl fun _ _ _ => rfl

end Lines

end CacheProxy
