/-
**The first requests on a connection to a server.**

With a password the proxy sends `AUTH` on a new connection, and with a database `SELECT`.  `AUTH` is
queued together with the first request that is forwarded, and `SELECT` is put before everything that
is queued when the connection turns out to be established; if it is established at once, `SELECT` is
not sent.

Main definitions:

* `prelude`, `InOrder` — the requests that have to come first, and that they do.

Main results:

* `run_inOrder` — **the first requests come in order** if the pool has no database, or a database,
  no password, and connections that are never established at once;
* `disordered_select` — `SELECT` before `AUTH`.
-/

import CacheProxy.RunPairing

namespace CacheProxy

variable {κ ι : Type} {env : Env κ ι} {es : List (ℕ × Event κ ι)} {p : Proxy κ}

/-- The requests that the proxy sends before those of clients. -/
def prelude (env : Env κ ι) : List Role :=
  (if env.requireAuth then [.auth] else []) ++ (if env.select.isSome then [.select] else [])

/-- **The requests written to the server `s` are in order**: first the prelude, as far as it goes,
and requests of clients only when it is complete. -/
def InOrder (env : Env κ ι) (p : Proxy κ) (s : ℕ) : Prop :=
  ∃ own rest, (p.hist.sentTo s).map p.hist.role = own ++ rest ∧ (∀ r ∈ rest, r = Role.client) ∧
    own <+: prelude env ∧ (rest ≠ [] → own = prelude env)

/-- No connection to a server is established at once. -/
def ConnectsLate (es : List (ℕ × Event κ ι)) : Prop :=
  ∀ e ∈ es,
    (∀ c reqs rest, e.2 = .clientRead c reqs rest → ∀ x ∈ reqs, ∀ i s connecting addOut,
      x.routes i = .conn s connecting addOut → connecting = true) ∧
    (∀ s connecting, e.2 = .preconnect s connecting → connecting = true)

theorem Allocates.meets_late (h : Allocates env es) (late : Prop) (hl : late → ConnectsLate es) :
    Meets env ⟨False, False, late, False⟩ es where
  full := False.elim
  events := by
    intro e he
    obtain ⟨t, e⟩ := e
    cases e with
    | clientRead c reqs rest =>
      refine ⟨fun x hx => ⟨fun n => ?_, fun hlate => ?_⟩, False.elim⟩
      · obtain ⟨f, hf⟩ := Option.isSome_iff_exists.1 (h _ he c reqs rest rfl x hx n)
        exact ⟨f, hf, False.elim⟩
      · exact (hl hlate _ he).1 c reqs rest rfl x hx
    | reply => exact False.elim
    | preconnect s connecting => exact fun hlate => (hl hlate _ he).2 s connecting rfl
    | _ => trivial
  ticking := False.elim

/-- A line that begins with a request of its own and goes on with those of clients. -/
theorem Led.inOrder {r : Role} {s : ℕ} (h : Led p.hist.role r (p.hist.sentTo s))
    (hpre : prelude env = [r]) : InOrder env p s := by
  obtain ⟨m, rest, hl, hm, hrest⟩ := h
  refine ⟨[r], rest.map p.hist.role, by simp [hl, hm], ?_, by simp [hpre], fun _ => hpre.symm⟩
  intro x hx
  obtain ⟨k, hk, rfl⟩ := List.mem_map.1 hx
  exact hrest k hk

theorem inOrder_nil {s : ℕ} (h : p.hist.sentTo s = []) : InOrder env p s :=
  ⟨[], [], by simp [h], by simp, List.nil_prefix, by simp⟩

/-- **The first requests come in order**, in every run of a pool that has no database, or has a
database, no password, and connections that are never established at once. -/
theorem run_inOrder (env : Env κ ι) (full : env.Full) (es : List (ℕ × Event κ ι))
    (h : Allocates env es)
    (cond : env.select = none ∨ env.requireAuth = false ∧ ConnectsLate es) (s : ℕ) :
    InOrder env (run env es) s := by
  have hf := run_fine es (h.meets_late (ConnectsLate es) id) 0 False.elim
  have hw := (hf.lines full).written s
  cases hauth : env.requireAuth with
  | true =>
    have hsel : env.select = none := cond.resolve_right fun hc => by simp [hauth] at hc
    rcases hw.auth (by simp [modeOf, hsel]) hauth with hnil | hled
    · exact inOrder_nil hnil
    · exact hled.inOrder (by simp [prelude, hauth, hsel])
  | false =>
    cases hsel : env.select with
    | none =>
      refine ⟨[], _, rfl, ?_, List.nil_prefix, fun _ => by simp [prelude, hauth, hsel]⟩
      intro r hr
      obtain ⟨k, hk, rfl⟩ := List.mem_map.1 hr
      exact hw.plain (by simp [modeOf, hsel]) hauth k hk
    | some =>
      have hlate : ConnectsLate es := (cond.resolve_left (by simp [hsel])).2
      rcases hw.select (by simp [modeOf, hsel]) hauth hlate with hnil | hled
      · exact inOrder_nil hnil
      · exact hled.inOrder (by simp [prelude, hauth, hsel])

/-- A pool with the password `pw`. -/
def authConf : RedisConf := { plainConf with redisAuth := some (str "pw") }

/-- The same with a database. -/
def authDbConf : RedisConf := { authConf with db := 1 }

/-- `AUTH pw` -/
def authRequest : Content RedisRegs := redisRequest 464 (lines ["*2", "$4", "AUTH", "$2", "pw"])

/-- A client gives the password and asks for `a`. -/
def authRun : List (ℕ × Event RedisRegs Placement) :=
  [(1, .accept 1),
    (2, .clientRead 1 [⟨authRequest, oneServer, fun _ => .none 0⟩] none),
    (3, .clientRead 1 [⟨getOf "a", oneServer, fun _ => .conn 2 true none⟩] none),
    (4, .serverSend 2 [.sent 1000, .again])]

theorem allocates_authRun (conf : RedisConf) (size : conf.size = 464) :
    Allocates (redisEnv conf) authRun := by
  intro e he c reqs rest heq x hx next
  simp only [authRun, List.mem_cons, List.not_mem_nil, or_false] at he
  rcases he with rfl | rfl | rfl | rfl <;> cases heq <;> cases List.mem_singleton.1 hx
  · change (redisFragmentation conf.size oneServer next authRequest).isSome
    rw [size]
    rfl
  · change (redisFragmentation conf.size oneServer next (getOf "a")).isSome
    rw [size]
    rfl

/-- **`SELECT` is written before `AUTH`.** -/
theorem disordered_select :
    Allocates (redisEnv authDbConf) authRun ∧ ConnectsLate authRun ∧
      ((run (redisEnv authDbConf) authRun).hist.sentTo 2).map
        (run (redisEnv authDbConf) authRun).hist.role = [.select, .auth, .client] ∧
      ¬ InOrder (redisEnv authDbConf) (run (redisEnv authDbConf) authRun) 2 := by
  have hroles : ((run (redisEnv authDbConf) authRun).hist.sentTo 2).map
      (run (redisEnv authDbConf) authRun).hist.role = [.select, .auth, .client] := by decide +kernel
  refine ⟨allocates_authRun _ rfl, ?_, hroles, ?_⟩
  · intro e he
    simp only [authRun, List.mem_cons, List.not_mem_nil, or_false] at he
    rcases he with rfl | rfl | rfl | rfl <;>
      refine ⟨fun c reqs rest heq => ?_, fun s k heq => by cases heq⟩
      <;> cases heq <;> intro x hx <;> cases List.mem_singleton.1 hx <;> intro i s k a hr <;>
        cases hr
    rfl
  · rintro ⟨own, rest, heq, hrest, hpre, -⟩
    rw [hroles] at heq
    have hprelude : prelude (redisEnv authDbConf) = [.auth, .select] := rfl
    rw [hprelude] at hpre
    cases own with
    | nil =>
      rw [List.nil_append] at heq
      exact Role.noConfusion (hrest .select (by simp [← heq]))
    | cons =>
      rw [List.cons_append, List.cons.injEq] at heq
      rw [← heq.1, List.cons_prefix_cons] at hpre
      cases hpre.1

theorem run_inOrder_auth :
    ((run (redisEnv authConf) authRun).hist.sentTo 2).length = 2 ∧
      InOrder (redisEnv authConf) (run (redisEnv authConf) authRun) 2 :=
  ⟨by decide +kernel, run_inOrder _ ⟨by decide +kernel, by simp [redisEnv, authConf, plainConf]⟩ _
    (allocates_authRun _ rfl) (.inl rfl) 2⟩

end CacheProxy
