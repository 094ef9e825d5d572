/-
**The redis request parser simulates its byte machine.**

The parser of `CacheProxy/RedisRequest.lean` moves its marker over many bytes at once, refers to
tokens and keys by offsets into buffers, and forgets what it has read of a token when the token is
moved.  This module relates its registers to the states of the machine, which reads byte by byte,
and proves the facts of `Simulation`.

The one token that is not read again from the state before its first byte is the number of keys of
`EVAL`: there the parser has already counted down `rlen` for the bytes that it will read again.

Main definitions:

* `ReqScan.Wf` — what holds of every state the machine reaches;
* `ReqRel` — the registers of a message represent a state of the machine;
* `ReqScan.Movable` — the open token, if any, can be moved to a new buffer.

Main results:

* `reqMachine_tokenizes` — the machine can be rewound to the start of a token;
* `redisReqStep_sim` — one iteration of the parser's loop;
* `redisParseReq_sim` — **the parser simulates the machine**.
-/

import CacheProxy.RedisRequest
import CacheProxy.Framing

namespace CacheProxy

open Decimal

/-! ### Reachable states -/

/-- **What holds of every state the machine reaches**: where a token can be open, and which
registers are clear when one begins. -/
def ReqScan.Wf (a : ReqScan) : Prop :=
  match a.state.kind with
  | .start => a.tok = [] ∧ a.rnarg = 0 ∧ a.rlen = 0
  | .narg => a.tok ≠ [] ∧ a.rlen = 0
  | .len => a.tok = [] → a.rlen = 0
  | .token => a.tok.length ≤ a.rlen
  | .arg2 => a.tok ≠ [] → redisArgeval a.type = true
  | .lenLf | .skip => a.tok = []
  | .lf => a.tok = [] ∧ a.rlen = 0

/-- The open token, if any, can be moved to a new buffer: it is not the number of keys of `EVAL`,
for which `rlen` has been counted down. -/
def ReqScan.Movable (a : ReqScan) : Prop := a.state = .arg2 → a.tok = []

/-- The tests at the end of an argument go on with a length, if they go on. -/
def Turn.ToLen (turn : Turn) : Prop := ∀ s, turn = .goto s → s.kind = .len

theorem afterReqType_toLen (t : MsgType) (n : ℕ) : (afterReqType t n).ToLen := by
  intro s h
  unfold afterReqType at h
  split_ifs at h <;> cases h <;> rfl

theorem afterKey_toLen (t : MsgType) (n m : ℕ) : (afterKey t n m).ToLen := by
  intro s h
  unfold afterKey at h
  split_ifs at h <;> cases h <;> rfl

theorem afterArg1_toLen (t : MsgType) (m : ℕ) : (afterArg1 t m).ToLen := by
  intro s h
  unfold afterArg1 at h
  split_ifs at h <;> cases h <;> rfl

theorem afterArg2_toLen (t : MsgType) (m : ℕ) : (afterArg2 t m).ToLen := by
  intro s h
  unfold afterArg2 at h
  split_ifs at h <;> cases h <;> rfl

theorem afterArg3_toLen (t : MsgType) (m : ℕ) : (afterArg3 t m).ToLen := by
  intro s h
  unfold afterArg3 at h
  split_ifs at h
  all_goals cases h
  all_goals rfl

theorem afterArgn_toLen (t : MsgType) (m : ℕ) : (afterArgn t m).ToLen := by
  intro s h
  unfold afterArgn at h
  split_ifs at h
  cases h
  rfl

theorem toLen_goto {s : ReqState} (h : s.kind = .len) : (Turn.goto s).ToLen := by
  rintro _ ⟨rfl⟩
  exact h

/-! ### What a step of the machine can do -/

namespace ReqScan

theorem lf_more {a a' : ReqScan} {c : Byte} {turn : Turn} (h : a.lf c turn = .more a') :
    ∃ s, turn = .goto s ∧ a' = { a with state := s } := by
  unfold lf at h
  split at h
  · cases turn with
    | goto s =>
        cases h
        exact ⟨s, rfl, rfl⟩
    | done => cases h
    | error => cases h
  · cases h

theorem nargStep_more {a a' : ReqScan} {c : Byte} (h : a.nargStep c = .more a') :
    (a.tok = [] ∧ a' = { a with tok := [c], rnarg := 0, state := .narg }) ∨
    (a.tok ≠ [] ∧
      a' = { a with tok := a.tok ++ [c], rnarg := wrap32 (a.rnarg * 10 + digitVal c) }) ∨
    a' = { a with narg := a.rnarg, tok := [], state := .nargLf } := by
  unfold nargStep at h
  split at h
  · next htok =>
      cases h
      exact .inl ⟨htok, rfl⟩
  · next htok =>
      split at h
      · cases h
        exact .inr (.inl ⟨htok, rfl⟩)
      · split at h
        · split at h
          · cases h
          · cases h
            exact .inr (.inr rfl)
        · cases h

theorem len_more {a a' : ReqScan} {c : Byte} {bad : ℕ → Bool} {s : ReqState}
    (h : a.len c bad s = .more a') :
    (a.tok = [] ∧ a' = { a with tok := [c], rlen := 0 }) ∨
    (a.tok ≠ [] ∧
      a' = { a with tok := a.tok ++ [c], rlen := wrap32 (a.rlen * 10 + digitVal c) }) ∨
    a' = { a with rnarg := a.rnarg - 1, tok := [], state := s } := by
  unfold len at h
  split at h
  · next htok =>
      split at h
      · cases h
      · cases h
        exact .inl ⟨htok, rfl⟩
  · next htok =>
      split at h
      · cases h
        exact .inr (.inl ⟨htok, rfl⟩)
      · split at h
        · split at h
          · cases h
          · cases h
            exact .inr (.inr rfl)
        · cases h

theorem token_more {a a' : ReqScan} {c : Byte} {got : List Byte → ReqScan → Next ReqScan ReqOut}
    (h : a.token c got = .more a') :
    (a.tok.length < a.rlen ∧ a' = { a with tok := a.tok ++ [c] }) ∨
    got a.tok { a with tok := [], rlen := 0 } = .more a' := by
  unfold token at h
  split at h
  · next hlt =>
      cases h
      exact .inl ⟨hlt, rfl⟩
  · split at h
    · cases h
    · exact .inr h

theorem skip_more {a a' : ReqScan} {c : Byte} {s : ReqState} (h : a.skip c s = .more a') :
    (0 < a.rlen ∧ a' = { a with rlen := a.rlen - 1 }) ∨
    (a.rlen = 0 ∧ a' = { a with state := s }) := by
  unfold skip at h
  split at h
  · next hlt =>
      cases h
      exact .inl ⟨hlt, rfl⟩
  · next hlt =>
      split at h
      · cases h
      · cases h
        exact .inr ⟨by omega, rfl⟩

theorem gotEvalKeys_more {a a' : ReqScan} (h : a.gotEvalKeys = .more a') :
    a' = { a with tok := [], state := .arg2Lf } := by
  unfold gotEvalKeys at h
  split at h
  · cases h
  · split at h
    · cases h
    · split at h
      · cases h
      · cases h
        rfl

theorem arg2_more {a a' : ReqScan} {c : Byte} (h : a.arg2 c = .more a') :
    (redisArgeval a.type = true ∧ 0 < a.rlen ∧
      a' = { a with tok := a.tok ++ [c], rlen := a.rlen - 1 }) ∨
    (a.rlen = 0 ∧ a' = { a with tok := [], state := .arg2Lf }) ∨
    (redisArgeval a.type = false ∧ a.skip c .arg2Lf = .more a') := by
  unfold arg2 at h
  split at h
  · next heval =>
      split at h
      · next hlt =>
          cases h
          exact .inl ⟨heval, hlt, rfl⟩
      · next hlt =>
          split at h
          · cases h
          · exact .inr (.inl ⟨by omega, gotEvalKeys_more h⟩)
  · next heval => exact .inr (.inr ⟨by simpa using heval, h⟩)

/-! ### Rewinding -/

/-- What a step does to the open token, see `ByteMachine.Tokenizes`. -/
def TokStep (a : ReqScan) (c : Byte) (a' : ReqScan) : Prop :=
  a'.Wf ∧ (a'.tok = [] ∨
    (a'.tok = a.tok ++ [c] ∧ (a'.Movable → (a.tok ≠ [] → a.Movable) ∧
      a'.rewind = if a.tok = [] then a else a.rewind)))

theorem movable_of_kind {a : ReqScan} (h : a.state.kind ≠ .arg2) : a.Movable := by
  intro hst
  rw [hst] at h
  exact absurd rfl h

/-- A byte is added to a token that can be moved. -/
theorem tokStep_extend {a a' : ReqScan} {c : Byte} (hwf : a'.Wf) (htok : a'.tok = a.tok ++ [c])
    (hst : a.state.kind ≠ .arg2) (hrew : a'.rewind = if a.tok = [] then a else a.rewind) :
    TokStep a c a' :=
  ⟨hwf, .inr ⟨htok, fun _ => ⟨fun _ => movable_of_kind hst, hrew⟩⟩⟩

theorem tokStep_lf {a a' : ReqScan} {c : Byte} {turn : Turn} (hturn : turn.ToLen)
    (hwf : a.tok = [] ∧ a.rlen = 0) (h : a.lf c turn = .more a') : TokStep a c a' := by
  obtain ⟨s, rfl, rfl⟩ := lf_more h
  refine ⟨?_, .inl hwf.1⟩
  simp only [Wf, hturn s rfl]
  exact fun _ => hwf.2

/-- Behind the line feed of a length no token is open. -/
theorem tokStep_lenLf {a a' : ReqScan} {c : Byte} {s : ReqState}
    (hs : s.kind = .token ∨ s.kind = .skip ∨ s.kind = .arg2) (htok : a.tok = [])
    (h : a.lf c (.goto s) = .more a') : TokStep a c a' := by
  obtain ⟨_, ⟨rfl⟩, rfl⟩ := lf_more h
  refine ⟨?_, .inl htok⟩
  rcases hs with hs | hs | hs <;> simp [Wf, hs, htok]

theorem tokStep_len {a a' : ReqScan} {c : Byte} {bad : ℕ → Bool} {s : ReqState}
    (hst : a.state.kind = .len) (hwf : a.tok = [] → a.rlen = 0) (hs : s.kind = .lenLf)
    (h : a.len c bad s = .more a') : TokStep a c a' := by
  rcases len_more h with ⟨htok, rfl⟩ | ⟨htok, rfl⟩ | rfl
  · refine tokStep_extend (by simp [Wf, hst]) (by simp [htok]) (by simp [hst]) ?_
    have hrlen := hwf htok
    simp only [rewind, hst, if_pos htok]
    obtain ⟨st, tok, rnarg, narg, rlen, type, keys, nf, quit⟩ := a
    cases htok
    cases hrlen
    rfl
  · refine tokStep_extend (by simp [Wf, hst]) rfl (by simp [hst]) ?_
    simp only [rewind, hst, if_neg htok]
  · exact ⟨by simp [Wf, hs], .inl rfl⟩

theorem tokStep_narg {a a' : ReqScan} {c : Byte}
    (hst : a.state = .start ∧ a.tok = [] ∧ a.rnarg = 0 ∧ a.rlen = 0 ∨
      a.state = .narg ∧ a.tok ≠ [] ∧ a.rlen = 0)
    (h : a.nargStep c = .more a') : TokStep a c a' := by
  obtain ⟨st, tok, rnarg, narg, rlen, type, keys, nf, quit⟩ := a
  simp only at hst
  rcases nargStep_more h with ⟨htok, rfl⟩ | ⟨htok, rfl⟩ | rfl
  · rcases hst with ⟨rfl, rfl, rfl, rfl⟩ | ⟨-, hne, -⟩
    · exact tokStep_extend ⟨by simp, rfl⟩ rfl (by simp [ReqState.kind]) rfl
    · exact absurd htok hne
  · rcases hst with ⟨-, hnil, -⟩ | ⟨rfl, -, rfl⟩
    · exact absurd hnil htok
    · refine tokStep_extend ⟨by simp, rfl⟩ rfl (by simp [ReqState.kind]) ?_
      simp only at htok
      simp [rewind, ReqState.kind, if_neg htok]
  · have hrlen : rlen = 0 := by
      rcases hst with ⟨-, -, -, hr⟩ | ⟨-, -, hr⟩ <;> exact hr
    exact ⟨⟨rfl, hrlen⟩, .inl rfl⟩

theorem tokStep_token {a a' : ReqScan} {c : Byte}
    {got : List Byte → ReqScan → Next ReqScan ReqOut} (hst : a.state.kind = .token)
    (hgot : ∀ tok x y, got tok x = .more y → y.state.kind = .lf ∧ y.tok = x.tok ∧ y.rlen = x.rlen)
    (h : a.token c got = .more a') : TokStep a c a' := by
  rcases token_more h with ⟨hlt, rfl⟩ | hg
  · refine tokStep_extend ?_ rfl (by simp [hst]) ?_
    · simp only [Wf, hst, List.length_append, List.length_singleton]
      omega
    · simp only [rewind, hst]
      split
      · next htok =>
          obtain ⟨st, tok, rnarg, narg, rlen, type, keys, nf, quit⟩ := a
          cases htok
          rfl
      · rfl
  · obtain ⟨hk, htok, hrlen⟩ := hgot _ _ _ hg
    refine ⟨?_, .inl htok⟩
    simp only [Wf, hk]
    exact ⟨htok, hrlen⟩

theorem tokStep_skip {a a' : ReqScan} {c : Byte} {s : ReqState} (htok : a.tok = [])
    (hst : a.state.kind = .skip ∨ a.state.kind = .arg2) (hs : s.kind = .lf)
    (h : a.skip c s = .more a') : TokStep a c a' := by
  rcases skip_more h with ⟨-, rfl⟩ | ⟨hzero, rfl⟩
  · refine ⟨?_, .inl htok⟩
    rcases hst with hst | hst <;> simp [Wf, hst, htok]
  · refine ⟨?_, .inl htok⟩
    simp only [Wf, hs]
    exact ⟨htok, hzero⟩

theorem tokStep_arg2 {a a' : ReqScan} {c : Byte} (hst : a.state = .arg2)
    (hwf : a.tok ≠ [] → redisArgeval a.type = true) (h : a.arg2 c = .more a') :
    TokStep a c a' := by
  rcases arg2_more h with ⟨heval, hpos, rfl⟩ | ⟨hzero, rfl⟩ | ⟨heval, hskip⟩
  · refine ⟨?_, .inr ⟨rfl, fun hmov => absurd (hmov hst) (by simp)⟩⟩
    simp only [Wf, hst, ReqState.kind]
    exact fun _ => heval
  · exact ⟨⟨rfl, hzero⟩, .inl rfl⟩
  · -- the token of another command than `EVAL` is never open here
    have htok : a.tok = [] := by
      by_contra hne
      exact Bool.false_ne_true (heval.symm.trans (hwf hne))
    exact tokStep_skip htok (.inr (by rw [hst]; rfl)) rfl hskip

theorem gotReqType_more {tok : List Byte} {x y : ReqScan} (h : gotReqType tok x = .more y) :
    y.state.kind = .lf ∧ y.tok = x.tok ∧ y.rlen = x.rlen := by
  unfold gotReqType at h
  dsimp only at h
  split at h
  · cases h
  · cases h
    exact ⟨rfl, rfl, rfl⟩

theorem gotKey_more {tok : List Byte} {x y : ReqScan} (h : gotKey tok x = .more y) :
    y.state.kind = .lf ∧ y.tok = x.tok ∧ y.rlen = x.rlen := by
  cases h
  exact ⟨rfl, rfl, rfl⟩

end ReqScan

theorem reqMachine_wf_init (size : ℕ) :
    (reqMachine size).init.Wf ∧ (reqMachine size).token (reqMachine size).init = [] :=
  ⟨⟨rfl, rfl, rfl⟩, rfl⟩

open ReqScan in
/-- **The machine can be rewound to the start of a token.** -/
theorem reqMachine_tokenizes (size : ℕ) :
    (reqMachine size).Tokenizes ReqScan.Wf ReqScan.Movable := by
  intro a c a' hwf h
  change TokStep a c a'
  change a.step size c = .more a' at h
  have hkind : ∀ s, a.state = s → a.state.kind = s.kind := fun s hs => by rw [hs]
  cases hst : a.state <;> simp only [step, hst] at h <;>
    simp only [Wf, hst, ReqState.kind] at hwf <;> have hk := hkind _ hst
  case start => exact tokStep_narg (.inl ⟨hst, hwf⟩) h
  case narg => exact tokStep_narg (.inr ⟨hst, hwf⟩) h
  case nargLf => exact tokStep_lf (toLen_goto rfl) hwf h
  case reqTypeLen | keyLen | arg1Len | arg2Len | arg3Len | argnLen =>
    exact tokStep_len hk hwf rfl h
  case reqTypeLenLf | keyLenLf => exact tokStep_lenLf (.inl rfl) hwf h
  case arg1LenLf | arg3LenLf | argnLenLf => exact tokStep_lenLf (.inr (.inl rfl)) hwf h
  case arg2LenLf => exact tokStep_lenLf (.inr (.inr rfl)) hwf h
  case reqType => exact tokStep_token hk (fun _ _ _ => gotReqType_more) h
  case key => exact tokStep_token hk (fun _ _ _ => gotKey_more) h
  case arg1 | arg3 | argn => exact tokStep_skip hwf (.inl hk) rfl h
  case arg2 => exact tokStep_arg2 hst hwf h
  case reqTypeLf => exact tokStep_lf (afterReqType_toLen _ _) hwf h
  case keyLf => exact tokStep_lf (afterKey_toLen _ _ _) hwf h
  case arg1Lf => exact tokStep_lf (afterArg1_toLen _ _) hwf h
  case arg2Lf => exact tokStep_lf (afterArg2_toLen _ _) hwf h
  case arg3Lf => exact tokStep_lf (afterArg3_toLen _ _) hwf h
  case argnLf => exact tokStep_lf (afterArgn_toLen _ _) hwf h

/-! ### Registers and states -/

/-- **The registers `r` of a message with the buffers `pre ++ [b]`, parsed up to offset `p` of `b`,
represent the state `a`.**  Registers that the next token resets are not compared. -/
structure ReqRelAt (pre : List Mbuf) (b : Mbuf) (p : ℕ) (a : ReqScan) (r : ReqRegs) : Prop where
  wf : a.Wf
  fresh : ∀ x ∈ pre, x.id ≠ b.id
  state : r.state = a.state ∨ (a.state = .start ∧ r.state = .narg)
  token : r.token = if a.tok = [] then none else some (p - a.tok.length)
  tok_le : a.tok.length ≤ p
  tok_bytes : slice b.data (p - a.tok.length) p = a.tok
  rnarg : a.state ≠ .start → r.rnarg = a.rnarg
  narg : r.narg = a.narg
  rlen : (a.state.kind = .len → a.tok ≠ []) → r.rlen = a.rlen
  type : r.type = a.type
  noforward : r.noforward = a.noforward
  quit : r.quit = a.quit
  keys : r.keys.map (keyBytes (pre ++ [b])) = a.keys.map some
  keys_le : ∀ k ∈ r.keys, k.mbuf = b.id → k.stop ≤ p - a.tok.length

/-- The registers of a complete request represent its result. -/
structure ReqOutAt (pre : List Mbuf) (b : Mbuf) (p : ℕ) (o : ReqOut) (r : ReqRegs) : Prop where
  type : r.type = o.type
  narg : r.narg = o.narg
  noforward : r.noforward = o.noforward
  quit : r.quit = o.quit
  keys : r.keys.map (keyBytes (pre ++ [b])) = o.keys.map some
  keys_le : ∀ k ∈ r.keys, k.mbuf = b.id → k.stop ≤ p

/-- One byte of the parser against one byte of the machine. -/
def ByteSim (pre : List Mbuf) (b : Mbuf) (p : ℕ) (flow : Flow ReqRegs)
    (nxt : Next ReqScan ReqOut) : Prop :=
  match flow with
  | .next p' r' => p' = p ∧ ∃ a', nxt = .more a' ∧ (a'.Wf → ReqRelAt pre b (p + 1) a' r')
  | .done p' r' => p' = p ∧ ∃ o, nxt = .done o ∧ ReqOutAt pre b (p + 1) o r'
  | .error _ => nxt = .fail

section Bytes

variable {pre : List Mbuf} {b : Mbuf} {p : ℕ} {ch : Byte} {a : ReqScan} {r : ReqRegs}

theorem ReqRelAt.token_none (h : ReqRelAt pre b p a r) (htok : a.tok = []) : r.token = none := by
  rw [h.token, if_pos htok]

theorem ReqRelAt.token_some (h : ReqRelAt pre b p a r) (htok : a.tok ≠ []) :
    r.token = some (p - a.tok.length) := by
  rw [h.token, if_neg htok]

theorem ReqRelAt.rnarg_eq (h : ReqRelAt pre b p a r) {s : ReqState} (hs : a.state = s)
    (hne : s ≠ .start) : r.rnarg = a.rnarg :=
  h.rnarg (hs ▸ hne)

theorem byteSim_lf {turn : Turn} (h : ReqRelAt pre b p a r) (htok : a.tok = [])
    (hst : a.state ≠ .start) (hlen : a.state.kind ≠ .len) :
    ByteSim pre b p (r.lfCase p ch turn) (a.lf ch turn) := by
  have hkeys : ∀ k ∈ r.keys, k.mbuf = b.id → k.stop ≤ p := by
    intro k hk hid
    have := h.keys_le k hk hid
    omega
  unfold ReqRegs.lfCase ReqScan.lf
  split
  · cases turn with
    | error => rfl
    | done =>
        refine ⟨rfl, a.out, rfl, ?_⟩
        exact ⟨h.type, h.narg, h.noforward, h.quit, h.keys,
          fun k hk hid => Nat.le_succ_of_le (hkeys k hk hid)⟩
    | goto s =>
        refine ⟨rfl, _, rfl, fun hwf => ?_⟩
        exact
          { wf := hwf
            fresh := h.fresh
            state := .inl rfl
            token := by simp [htok, h.token_none htok]
            tok_le := by simp [htok]
            tok_bytes := by simp [htok]
            rnarg := fun _ => h.rnarg hst
            narg := h.narg
            rlen := fun _ => h.rlen (fun hk => absurd hk hlen)
            type := h.type
            noforward := h.noforward
            quit := h.quit
            keys := h.keys
            keys_le := by
              intro k hk hid
              have := hkeys k hk hid
              simp only [htok, List.length_nil]
              omega }
  · rfl

/-- The bytes up to offset `q` are added to the open token, or begin one. -/
theorem ReqRelAt.extend {a' : ReqScan} {r' : ReqRegs} {q : ℕ} (h : ReqRelAt pre b p a r)
    (hpq : p < q) (hq : q ≤ b.data.length) (hwf : a'.Wf) (htok : a'.tok = a.tok ++ slice b.data p q)
    (hstate : r'.state = a'.state) (htoken : r'.token = some (p - a.tok.length))
    (hrnarg : r'.rnarg = a'.rnarg) (hrlen : r'.rlen = a'.rlen)
    (hreg : r'.narg = r.narg ∧ r'.type = r.type ∧ r'.noforward = r.noforward ∧
      r'.quit = r.quit ∧ r'.keys = r.keys)
    (hscan : a'.narg = a.narg ∧ a'.type = a.type ∧ a'.noforward = a.noforward ∧
      a'.quit = a.quit ∧ a'.keys = a.keys) : ReqRelAt pre b q a' r' := by
  obtain ⟨hnarg, htype, hnf, hquit, hkeys⟩ := hreg
  obtain ⟨hnarg', htype', hnf', hquit', hkeys'⟩ := hscan
  have hle := h.tok_le
  have hlen : a'.tok.length = a.tok.length + (q - p) := by
    rw [htok, List.length_append, slice_length hq]
  have hne : a'.tok ≠ [] := by
    rw [← List.length_pos_iff]
    omega
  have hoff : q - a'.tok.length = p - a.tok.length := by omega
  exact
    { wf := hwf
      fresh := h.fresh
      state := .inl hstate
      token := by rw [if_neg hne, hoff, htoken]
      tok_le := by omega
      tok_bytes := by
        rw [hoff, htok, ← slice_append_slice (Nat.sub_le _ _) hpq.le hq, h.tok_bytes]
      rnarg := fun _ => hrnarg
      narg := by rw [hnarg, hnarg', h.narg]
      rlen := fun _ => hrlen
      type := by rw [htype, htype', h.type]
      noforward := by rw [hnf, hnf', h.noforward]
      quit := by rw [hquit, hquit', h.quit]
      keys := by rw [hkeys, hkeys', h.keys]
      keys_le := by
        intro k hk hid
        rw [hkeys] at hk
        rw [hoff]
        exact h.keys_le k hk hid }

/-- The open token, if any, is closed before offset `q`. -/
theorem ReqRelAt.close {a' : ReqScan} {r' : ReqRegs} {q : ℕ} (h : ReqRelAt pre b p a r)
    (hpq : p ≤ q) (hwf : a'.Wf)
    (htok : a'.tok = []) (hstate : r'.state = a'.state) (htoken : r'.token = none)
    (hrnarg : r'.rnarg = a'.rnarg) (hrlen : r'.rlen = a'.rlen) (hnarg : r'.narg = a'.narg)
    (hreg : r'.type = r.type ∧ r'.noforward = r.noforward ∧ r'.quit = r.quit ∧ r'.keys = r.keys)
    (hscan : a'.type = a.type ∧ a'.noforward = a.noforward ∧ a'.quit = a.quit ∧
      a'.keys = a.keys) : ReqRelAt pre b q a' r' := by
  obtain ⟨htype, hnf, hquit, hkeys⟩ := hreg
  obtain ⟨htype', hnf', hquit', hkeys'⟩ := hscan
  exact
    { wf := hwf
      fresh := h.fresh
      state := .inl hstate
      token := by simp [htok, htoken]
      tok_le := by simp [htok]
      tok_bytes := by simp [htok]
      rnarg := fun _ => hrnarg
      narg := hnarg
      rlen := fun _ => hrlen
      type := by rw [htype, htype', h.type]
      noforward := by rw [hnf, hnf', h.noforward]
      quit := by rw [hquit, hquit', h.quit]
      keys := by rw [hkeys, hkeys', h.keys]
      keys_le := by
        intro k hk hid
        rw [hkeys] at hk
        have := h.keys_le k hk hid
        simp only [htok, List.length_nil]
        omega }

/-- A byte is added to the open token, or begins one. -/
theorem ReqRelAt.snoc {a' : ReqScan} {r' : ReqRegs} (h : ReqRelAt pre b p a r)
    (hch : b.data[p]? = some ch) (hwf : a'.Wf) (htok : a'.tok = a.tok ++ [ch])
    (hstate : r'.state = a'.state) (htoken : r'.token = some (p - a.tok.length))
    (hrnarg : r'.rnarg = a'.rnarg) (hrlen : r'.rlen = a'.rlen)
    (hreg : r'.narg = r.narg ∧ r'.type = r.type ∧ r'.noforward = r.noforward ∧
      r'.quit = r.quit ∧ r'.keys = r.keys)
    (hscan : a'.narg = a.narg ∧ a'.type = a.type ∧ a'.noforward = a.noforward ∧
      a'.quit = a.quit ∧ a'.keys = a.keys) : ReqRelAt pre b (p + 1) a' r' := by
  have hp : p < b.data.length := (List.getElem?_eq_some_iff.1 hch).1
  have hone : slice b.data p (p + 1) = [ch] := by simp [slice_succ (Nat.le_refl p) hch]
  exact h.extend (Nat.lt_succ_self p) hp hwf (by rw [htok, hone]) hstate htoken hrnarg hrlen
    hreg hscan

theorem byteSim_narg (h : ReqRelAt pre b p a r) (hch : b.data[p]? = some ch)
    (hst : a.state = .start ∧ a.tok = [] ∨ a.state = .narg ∧ a.tok ≠ []) (hrlen : r.rlen = a.rlen) :
    ByteSim pre b p (r.nargCase p ch) (a.nargStep ch) := by
  unfold ReqRegs.nargCase ReqScan.nargStep
  by_cases htok : a.tok = []
  · simp only [h.token_none htok, if_pos htok]
    refine ⟨rfl, _, rfl, fun hwf => ?_⟩
    exact h.snoc hch hwf (by simp [htok]) rfl (by simp [htok]) rfl hrlen
      ⟨rfl, rfl, rfl, rfl, rfl⟩ ⟨rfl, rfl, rfl, rfl, rfl⟩
  · have hstate : a.state = .narg := by
      rcases hst with ⟨-, hnil⟩ | ⟨hs, -⟩
      · exact absurd hnil htok
      · exact hs
    have hrstate : r.state = .narg := by
      rcases h.state with hs | ⟨-, hs⟩
      · rw [hs, hstate]
      · exact hs
    have hrn : r.rnarg = a.rnarg := h.rnarg_eq hstate (by decide)
    simp only [h.token_some htok, if_neg htok, hrn]
    split
    · refine ⟨rfl, _, rfl, fun hwf => ?_⟩
      exact h.snoc hch hwf rfl (by rw [hstate]; exact hrstate) rfl rfl hrlen
        ⟨rfl, rfl, rfl, rfl, rfl⟩ ⟨rfl, rfl, rfl, rfl, rfl⟩
    · split
      · split
        · rfl
        · refine ⟨rfl, _, rfl, fun hwf => ?_⟩
          exact h.close (Nat.le_succ p) hwf rfl rfl rfl rfl hrlen rfl ⟨rfl, rfl, rfl, rfl⟩
            ⟨rfl, rfl, rfl, rfl⟩
      · rfl

theorem byteSim_len {bad bad' : ℕ → Bool} {s : ReqState} (h : ReqRelAt pre b p a r)
    (hch : b.data[p]? = some ch) (hst : a.state.kind = .len)
    (hbad : a.tok ≠ [] → bad a.tok.length = bad' a.tok.length) :
    ByteSim pre b p (r.lenCase p ch bad s) (a.len ch bad' s) := by
  have hne : a.state ≠ .start := by
    intro hs
    rw [hs] at hst
    cases hst
  have hrn : r.rnarg = a.rnarg := h.rnarg hne
  have hrstate : r.state = a.state := by
    rcases h.state with hs | ⟨hs, -⟩
    · exact hs
    · exact absurd hs hne
  unfold ReqRegs.lenCase ReqScan.len
  by_cases htok : a.tok = []
  · simp only [h.token_none htok, if_pos htok]
    split
    · rfl
    · refine ⟨rfl, _, rfl, fun hwf => ?_⟩
      exact h.snoc hch hwf (by simp [htok]) hrstate (by simp [htok]) hrn rfl
        ⟨rfl, rfl, rfl, rfl, rfl⟩ ⟨rfl, rfl, rfl, rfl, rfl⟩
  · have hrl : r.rlen = a.rlen := h.rlen fun _ => htok
    have hle := h.tok_le
    have hoff : p - (p - a.tok.length) = a.tok.length := by omega
    simp only [h.token_some htok, if_neg htok, hrn, hrl, hoff, hbad htok]
    split
    · refine ⟨rfl, _, rfl, fun hwf => ?_⟩
      exact h.snoc hch hwf rfl hrstate rfl rfl rfl
        ⟨rfl, rfl, rfl, rfl, rfl⟩ ⟨rfl, rfl, rfl, rfl, rfl⟩
    · split
      · split
        · rfl
        · refine ⟨rfl, _, rfl, fun hwf => ?_⟩
          exact h.close (Nat.le_succ p) hwf rfl rfl rfl rfl rfl h.narg ⟨rfl, rfl, rfl, rfl⟩
            ⟨rfl, rfl, rfl, rfl⟩
      · rfl

end Bytes

/-! ### Many bytes at once -/

/-- One iteration of the parser's loop at `p` against the machine's run from `a`. -/
def ReqFlowSim (size : ℕ) (pre : List Mbuf) (b : Mbuf) (p : ℕ) (a : ReqScan)
    (flow : Flow ReqRegs) : Prop :=
  FlowSim (reqMachine size) b.data (ReqRelAt pre b) (ReqOutAt pre b) p a flow

section Flows

variable {size : ℕ} {pre : List Mbuf} {b : Mbuf} {p : ℕ} {ch : Byte} {a : ReqScan} {r : ReqRegs}

/-- The machine reads the bytes up to offset `m`, and the byte there is simulated. -/
theorem flowSim_of_byteSim {m : ℕ} {c : Byte} {a₁ : ReqScan} {nxt : Next ReqScan ReqOut}
    {flow : Flow ReqRegs} (hp : p ≤ m)
    (hrun : (reqMachine size).run a (b.data.drop p) = (reqMachine size).run a₁ (b.data.drop m))
    (hwf : a₁.Wf) (hc : b.data[m]? = some c) (hstep : a₁.step size c = nxt)
    (hsim : ByteSim pre b m flow nxt) : ReqFlowSim size pre b p a flow := by
  have hm : m < b.data.length := (List.getElem?_eq_some_iff.1 hc).1
  rw [drop_eq_cons hc] at hrun
  cases flow with
  | next =>
      obtain ⟨rfl, a', rfl, hrel⟩ := hsim
      have hwf' := (reqMachine_tokenizes size a₁ c a' hwf hstep).1
      refine ⟨hp, hm, a', hrel hwf', ?_⟩
      rw [hrun, ByteMachine.run_cons_more hstep]
  | done =>
      obtain ⟨rfl, o, rfl, hout⟩ := hsim
      refine ⟨hm, o, ?_, hout⟩
      rw [hrun, ByteMachine.run_cons_done hstep]
  | error =>
      change nxt = .fail at hsim
      subst hsim
      change (reqMachine size).run a (b.data.drop p) = .fail
      rw [hrun, ByteMachine.run_cons_fail hstep]

/-- The bytes of a token of known length. -/
theorem leads_token_bytes (size : ℕ) (ok : ReqScan → Prop)
    {got : List Byte → ReqScan → Next ReqScan ReqOut} (xs : List Byte)
    (hstep : ∀ t c, ReqScan.step size { a with tok := t } c = ReqScan.token
      { a with tok := t } c got)
    (hok : ∀ t : List Byte, t.length < a.rlen → ok { a with tok := t })
    (hlen : a.tok.length + xs.length ≤ a.rlen) :
    (reqMachine size).Leads ok a xs { a with tok := a.tok ++ xs } := by
  induction xs generalizing a with
  | nil => simp
  | cons x xs ih =>
      rw [List.length_cons] at hlen
      have hone : (reqMachine size).step a x = .more { a with tok := a.tok ++ [x] } := by
        change a.step size x = _
        rw [hstep a.tok x, ReqScan.token, if_pos (by simp only; omega)]
      refine .cons (hok a.tok (by omega)) hone ?_
      have := ih (a := { a with tok := a.tok ++ [x] }) hstep hok
        (by simp only [List.length_append, List.length_singleton]; omega)
      simpa using this

/-- The bytes of an argument that is not looked at. -/
theorem leads_skip_bytes (size : ℕ) (ok : ReqScan → Prop) {s : ReqState} (xs : List Byte)
    (hstep : ∀ n c, ReqScan.step size { a with rlen := n } c = ReqScan.skip
      { a with rlen := n } c s)
    (hok : ∀ n : ℕ, ok { a with rlen := n }) (hlen : xs.length ≤ a.rlen) :
    (reqMachine size).Leads ok a xs { a with rlen := a.rlen - xs.length } := by
  induction xs generalizing a with
  | nil => simp
  | cons x xs ih =>
      rw [List.length_cons] at hlen
      have hone : (reqMachine size).step a x = .more { a with rlen := a.rlen - 1 } := by
        change a.step size x = _
        rw [hstep a.rlen x, ReqScan.skip, if_pos (by simp only; omega)]
      refine .cons (hok a.rlen) hone ?_
      have := ih (a := { a with rlen := a.rlen - 1 }) hstep hok (by simp only; omega)
      rwa [show a.rlen - (x :: xs).length = a.rlen - 1 - xs.length by
        rw [List.length_cons]; omega]

/-- The bytes of the number of keys of `EVAL`. -/
theorem leads_evalKeys_bytes (size : ℕ) (ok : ReqScan → Prop) (xs : List Byte)
    (hst : a.state = .arg2) (heval : redisArgeval a.type = true)
    (hok : ∀ (t : List Byte) (n : ℕ), t.length + n = a.tok.length + a.rlen → 0 < n →
      ok { a with tok := t, rlen := n })
    (hlen : xs.length ≤ a.rlen) :
    (reqMachine size).Leads ok a xs
      { a with tok := a.tok ++ xs, rlen := a.rlen - xs.length } := by
  induction xs generalizing a with
  | nil => simp
  | cons x xs ih =>
      rw [List.length_cons] at hlen
      have hone : (reqMachine size).step a x =
          .more { a with tok := a.tok ++ [x], rlen := a.rlen - 1 } := by
        change a.step size x = _
        simp only [ReqScan.step, hst, ReqScan.arg2, heval, if_true]
        rw [if_pos (by omega)]
      refine .cons (hok a.tok a.rlen rfl (by omega)) hone ?_
      have := ih (a := { a with tok := a.tok ++ [x], rlen := a.rlen - 1 }) hst heval
        (fun t n hn hpos => hok t n
          (by simp only [List.length_append, List.length_singleton] at hn; omega) hpos)
        (by simp only; omega)
      rw [show a.rlen - (x :: xs).length = a.rlen - 1 - xs.length by
        rw [List.length_cons]; omega]
      simpa using this

theorem ReqRelAt.state_eq (h : ReqRelAt pre b p a r) (hne : a.state ≠ .start) :
    r.state = a.state := by
  rcases h.state with hs | ⟨hs, -⟩
  · exact hs
  · exact absurd hs hne

/-- The token's first byte, also when the token begins at `p`. -/
theorem ReqRelAt.token_getD (h : ReqRelAt pre b p a r) :
    r.token.getD p = p - a.tok.length := by
  rw [h.token]
  split
  · next htok => simp [htok]
  · rfl

theorem flowSim_token {got : ℕ → ℕ → ReqRegs → Flow ReqRegs}
    {gotA : List Byte → ReqScan → Next ReqScan ReqOut} (h : ReqRelAt pre b p a r)
    (hp : p < b.data.length) (hk : a.state.kind = .token)
    (hstep : ∀ t c, ReqScan.step size { a with tok := t } c = ReqScan.token
      { a with tok := t } c gotA)
    (hgot : ∀ m, p ≤ m → b.data[m]? = some CR →
      ByteSim pre b m (got (p - a.tok.length) m { r with rlen := 0, token := none })
        (gotA (slice b.data (p - a.tok.length) m) { a with tok := [], rlen := 0 })) :
    ReqFlowSim size pre b p a (r.tokenCase b p got) := by
  have hne : a.state ≠ .start := fun hs => by rw [hs] at hk; cases hk
  have hrl : r.rlen = a.rlen := h.rlen fun hl => by rw [hk] at hl; cases hl
  have hle := h.tok_le
  have hwf : a.tok.length ≤ a.rlen := by
    have := h.wf
    simpa only [ReqScan.Wf, hk] using this
  have hwf' : ∀ t : List Byte, t.length ≤ a.rlen → ReqScan.Wf { a with tok := t } := by
    intro t ht
    simpa only [ReqScan.Wf, hk] using ht
  have hrun : ∀ m, p ≤ m → m ≤ b.data.length → m ≤ p - a.tok.length + a.rlen →
      (reqMachine size).run a (b.data.drop p) =
        (reqMachine size).run { a with tok := a.tok ++ slice b.data p m } (b.data.drop m) := by
    intro m hpm hm hle'
    have hl := leads_token_bytes size (fun _ => True) (slice b.data p m) hstep
      (fun _ _ => trivial) (by rw [slice_length hm]; omega)
    rw [← slice_drop hpm, hl.run_append]
  simp only [ReqRegs.tokenCase, h.token_getD, hrl]
  split
  · -- the token goes on behind the buffer
    next hlong =>
      refine ⟨by omega, by omega, { a with tok := a.tok ++ slice b.data p b.data.length }, ?_, ?_⟩
      · rw [Nat.sub_add_cancel (by omega)]
        refine h.extend hp (Nat.le_refl _) (hwf' _ ?_) rfl (h.state_eq hne) rfl (h.rnarg hne) rfl
          ⟨rfl, rfl, rfl, rfl, rfl⟩ ⟨rfl, rfl, rfl, rfl, rfl⟩
        rw [List.length_append, slice_length (Nat.le_refl _)]
        omega
      · rw [Nat.sub_add_cancel (by omega)]
        exact hrun _ hp.le (Nat.le_refl _) hlong
  · -- the byte behind the token is there
    next hshort =>
      set m := p - a.tok.length + a.rlen with hm
      have hpm : p ≤ m := by omega
      have hmlt : m < b.data.length := by omega
      have htok : a.tok ++ slice b.data p m = slice b.data (p - a.tok.length) m := by
        rw [← slice_append_slice (Nat.sub_le _ _) hpm hmlt.le, h.tok_bytes]
      have hlen : (a.tok ++ slice b.data p m).length = a.rlen := by
        rw [List.length_append, slice_length hmlt.le]
        omega
      obtain ⟨c, hc⟩ : ∃ c, b.data[m]? = some c := ⟨_, List.getElem?_eq_getElem hmlt⟩
      have hnxt : ReqScan.step size { a with tok := a.tok ++ slice b.data p m } c =
          if c ≠ CR then .fail
          else gotA (slice b.data (p - a.tok.length) m) { a with tok := [], rlen := 0 } := by
        rw [hstep, ReqScan.token, if_neg (by simp only [hlen]; omega)]
        simp only [htok]
      refine flowSim_of_byteSim hpm (hrun m hpm hmlt.le (Nat.le_refl _)) (hwf' _ hlen.le) hc hnxt ?_
      by_cases hcr : c = CR
      · subst hcr
        simp only [hc, ne_eq, not_true_eq_false, if_false]
        exact hgot m hpm hc
      · have : b.data[m]? ≠ some CR := by
          rw [hc]
          exact fun heq => hcr (Option.some.inj heq)
        simp only [if_pos this, if_pos hcr]
        rfl

/-- The parser skips an argument, to its end or to the end of the buffer; `f` is what it does to
the machine's state meanwhile. -/
theorem flowSim_skip {got : ℕ → ReqRegs → Flow ReqRegs} (f : List Byte → ReqScan)
    (nxt : Next ReqScan ReqOut) (hp : p < b.data.length) (hrl : r.rlen = a.rlen)
    (hrun : ∀ m, p ≤ m → m ≤ b.data.length → m ≤ p + a.rlen →
      (reqMachine size).run a (b.data.drop p) =
        (reqMachine size).run (f (slice b.data p m)) (b.data.drop m))
    (hwf : ∀ xs : List Byte, xs.length ≤ a.rlen → (f xs).Wf)
    (hrel : b.data.length ≤ p + a.rlen →
      ReqRelAt pre b b.data.length (f (slice b.data p b.data.length))
        { r with rlen := r.rlen - (b.data.length - p) })
    (hstep : ∀ c, p + a.rlen < b.data.length →
      ReqScan.step size (f (slice b.data p (p + a.rlen))) c = if c ≠ CR then .fail else nxt)
    (hgot : b.data[p + a.rlen]? = some CR →
      ByteSim pre b (p + a.rlen) (got (p + a.rlen) { r with rlen := 0 }) nxt) :
    ReqFlowSim size pre b p a (r.skipCase b p got) := by
  simp only [ReqRegs.skipCase, hrl]
  split
  · next hlong =>
      refine ⟨by omega, by omega, f (slice b.data p b.data.length), ?_, ?_⟩
      · rw [Nat.sub_add_cancel (by omega), ← hrl]
        exact hrel hlong
      · rw [Nat.sub_add_cancel (by omega)]
        exact hrun _ hp.le (Nat.le_refl _) hlong
  · next hshort =>
      have hmlt : p + a.rlen < b.data.length := by omega
      obtain ⟨c, hc⟩ : ∃ c, b.data[p + a.rlen]? = some c := ⟨_, List.getElem?_eq_getElem hmlt⟩
      refine flowSim_of_byteSim (Nat.le_add_right _ _)
        (hrun _ (Nat.le_add_right _ _) hmlt.le (Nat.le_refl _)) (hwf _ ?_) hc (hstep c hmlt) ?_
      · rw [slice_length hmlt.le]
        omega
      · by_cases hcr : c = CR
        · subst hcr
          simp only [hc, ne_eq, not_true_eq_false, if_false]
          exact hgot hc
        · have : b.data[p + a.rlen]? ≠ some CR := by
            rw [hc]
            exact fun heq => hcr (Option.some.inj heq)
          simp only [if_pos this, if_pos hcr]
          rfl

/-- An argument that is not looked at. -/
theorem flowSim_plainSkip {s : ReqState} (h : ReqRelAt pre b p a r) (hp : p < b.data.length)
    (hk : a.state.kind = .skip ∨ a.state.kind = .arg2) (htok : a.tok = [])
    (hstep : ∀ n c, ReqScan.step size { a with rlen := n } c = ReqScan.skip
      { a with rlen := n } c s) :
    ReqFlowSim size pre b p a
      (r.skipCase b p fun m r' => .next m { r' with state := s }) := by
  have hne : a.state ≠ .start := fun hst => by
    rw [hst] at hk
    rcases hk with hk | hk <;> cases hk
  have hrl : r.rlen = a.rlen := h.rlen fun hl => by
    rw [hl] at hk
    rcases hk with hk | hk <;> cases hk
  have hwf : ∀ n : ℕ, ReqScan.Wf { a with rlen := n } := by
    intro n
    rcases hk with hk | hk <;> simp [ReqScan.Wf, hk, htok]
  refine flowSim_skip (fun xs => { a with rlen := a.rlen - xs.length })
    (.more { a with rlen := 0, state := s }) hp hrl ?_ (fun _ _ => hwf _) ?_ ?_ ?_
  · intro m hpm hm hle
    have hl := leads_skip_bytes size (fun _ => True) (slice b.data p m) hstep (fun _ => trivial)
      (by rw [slice_length hm]; omega)
    rw [← slice_drop hpm, hl.run_append]
  · intro hlong
    simp only [slice_length (Nat.le_refl b.data.length), hrl]
    exact h.close hp.le (hwf _) htok (h.state_eq hne) (h.token_none htok) (h.rnarg hne) rfl h.narg
      ⟨rfl, rfl, rfl, rfl⟩ ⟨rfl, rfl, rfl, rfl⟩
  · intro c hmlt
    have hzero : a.rlen - (slice b.data p (p + a.rlen)).length = 0 := by
      rw [slice_length hmlt.le]
      omega
    rw [hzero, hstep, ReqScan.skip, if_neg (by simp)]
  · intro hc
    refine ⟨rfl, _, rfl, fun hwf' => ?_⟩
    exact h.close (by omega) hwf' htok rfl (h.token_none htok) (h.rnarg hne) rfl h.narg
      ⟨rfl, rfl, rfl, rfl⟩ ⟨rfl, rfl, rfl, rfl⟩

/-- The second argument: of `EVAL` a token that is counted down, of others not looked at. -/
theorem flowSim_arg2 (h : ReqRelAt pre b p a r) (hp : p < b.data.length) (hst : a.state = .arg2) :
    ReqFlowSim size pre b p a (r.arg2Case b p) := by
  have hne : a.state ≠ .start := by
    rw [hst]
    decide
  have hrl : r.rlen = a.rlen := h.rlen fun hl => by
    rw [hst] at hl
    cases hl
  have hle := h.tok_le
  unfold ReqRegs.arg2Case
  cases heval : redisArgeval a.type with
  | false =>
      have htok : a.tok = [] := by
        by_contra hnil
        have hwf := h.wf
        simp only [ReqScan.Wf, hst, ReqState.kind] at hwf
        exact Bool.false_ne_true (heval.symm.trans (hwf hnil))
      have hreval : redisArgeval r.type = false := by rw [h.type, heval]
      simp only [hreval, Bool.false_eq_true, and_false, if_false]
      have hgot : r.skipCase b p (ReqRegs.gotArg2 b p) =
          r.skipCase b p fun m r' => .next m { r' with state := .arg2Lf } := by
        simp only [ReqRegs.skipCase, ReqRegs.gotArg2, hreval, Bool.false_eq_true, if_false]
      rw [hgot]
      refine flowSim_plainSkip h hp (.inr (by rw [hst]; rfl)) htok fun n c => ?_
      simp only [ReqScan.step, hst, ReqScan.arg2, heval, Bool.false_eq_true, if_false]
  | true =>
      have hreval : redisArgeval r.type = true := by rw [h.type, heval]
      -- the token is open from here on, if it was not before
      have hopen : (if r.token = none ∧ redisArgeval r.type = true then { r with token := some p }
          else r) = { r with token := some (p - a.tok.length) } := by
        by_cases htok : a.tok = []
        · rw [if_pos ⟨h.token_none htok, hreval⟩]
          simp [htok]
        · rw [if_neg (by simp [h.token_some htok]), ← h.token_some htok]
      rw [hopen]
      have hwf : ∀ (t : List Byte) (n : ℕ), ReqScan.Wf { a with tok := t, rlen := n } := by
        intro t n
        simp only [ReqScan.Wf, hst, ReqState.kind]
        exact fun _ => heval
      refine flowSim_skip (fun xs => { a with tok := a.tok ++ xs, rlen := a.rlen - xs.length })
        (ReqScan.gotEvalKeys
          { a with tok := slice b.data (p - a.tok.length) (p + a.rlen), rlen := 0 })
        hp hrl ?_ (fun _ _ => hwf _ _) ?_ ?_ ?_
      · intro m hpm hm hlem
        have hl := leads_evalKeys_bytes size (fun _ => True) (slice b.data p m) hst heval
          (fun _ _ _ _ => trivial) (by rw [slice_length hm]; omega)
        rw [← slice_drop hpm, hl.run_append]
      · intro hlong
        simp only [slice_length (Nat.le_refl b.data.length), hrl]
        exact h.extend hp (Nat.le_refl _) (hwf _ _) rfl (h.state_eq hne) rfl (h.rnarg hne) rfl
          ⟨rfl, rfl, rfl, rfl, rfl⟩ ⟨rfl, rfl, rfl, rfl, rfl⟩
      · intro c hmlt
        have hzero : a.rlen - (slice b.data p (p + a.rlen)).length = 0 := by
          rw [slice_length hmlt.le]
          omega
        have htok : a.tok ++ slice b.data p (p + a.rlen) =
            slice b.data (p - a.tok.length) (p + a.rlen) := by
          rw [← slice_append_slice (Nat.sub_le _ _) (Nat.le_add_right _ _) hmlt.le, h.tok_bytes]
        simp only [hzero, htok, ReqScan.step, hst, ReqScan.arg2, heval, if_true, Nat.lt_irrefl,
          if_false]
      · intro hc
        have hm : p + a.rlen < b.data.length := (List.getElem?_eq_some_iff.1 hc).1
        have hlen := slice_length (i := p - a.tok.length) hm.le
        have hnil : p + a.rlen - (p - a.tok.length) < 1 ↔
            slice b.data (p - a.tok.length) (p + a.rlen) = [] := by
          rw [← hlen, Nat.lt_one_iff, List.length_eq_zero_iff]
        simp only [ReqRegs.gotArg2, hreval, if_true, Option.getD_some, ReqScan.gotEvalKeys, hnil]
        split
        · rfl
        · split
          · rfl
          · split
            · rfl
            · refine ⟨rfl, _, rfl, fun hwf' => ?_⟩
              exact h.close (by omega) hwf' rfl rfl rfl (h.rnarg hne) rfl h.narg
                ⟨rfl, rfl, rfl, rfl⟩ ⟨rfl, rfl, rfl, rfl⟩

theorem byteSim_gotReqType {m : ℕ} (h : ReqRelAt pre b p a r) (hst : a.state = .reqType)
    (hpm : p ≤ m) (hc : b.data[m]? = some CR) :
    ByteSim pre b m (ReqRegs.gotReqType b (p - a.tok.length) m { r with rlen := 0, token := none })
      (ReqScan.gotReqType (slice b.data (p - a.tok.length) m) { a with tok := [], rlen := 0 }) := by
  have hm : m < b.data.length := (List.getElem?_eq_some_iff.1 hc).1
  have hle : p - a.tok.length ≤ m := by omega
  have hne : a.state ≠ .start := by
    rw [hst]
    decide
  simp only [ReqRegs.gotReqType, ReqScan.gotReqType, slice_succ hle hc, slice_length hm.le]
  split
  · rfl
  · refine ⟨rfl, _, rfl, fun hwf => ?_⟩
    exact
      { wf := hwf
        fresh := h.fresh
        state := .inl rfl
        token := rfl
        tok_le := Nat.zero_le _
        tok_bytes := slice_self _ _
        rnarg := fun _ => h.rnarg hne
        narg := h.narg
        rlen := fun _ => rfl
        type := rfl
        noforward := by simp only [h.noforward]
        quit := by simp only [h.quit]
        keys := h.keys
        keys_le := by
          intro k hk hid
          have := h.keys_le k hk hid
          simp only [List.length_nil]
          omega }

theorem byteSim_gotKey {m : ℕ} (h : ReqRelAt pre b p a r) (hst : a.state = .key)
    (hpm : p ≤ m) (hc : b.data[m]? = some CR) :
    ByteSim pre b m (ReqRegs.gotKey b (p - a.tok.length) m { r with rlen := 0, token := none })
      (ReqScan.gotKey (slice b.data (p - a.tok.length) m) { a with tok := [], rlen := 0 }) := by
  have hm : m < b.data.length := (List.getElem?_eq_some_iff.1 hc).1
  have hle : p - a.tok.length ≤ m := by omega
  have hne : a.state ≠ .start := by
    rw [hst]
    decide
  refine ⟨rfl, _, rfl, fun hwf => ?_⟩
  exact
    { wf := hwf
      fresh := h.fresh
      state := .inl rfl
      token := rfl
      tok_le := Nat.zero_le _
      tok_bytes := slice_self _ _
      rnarg := fun _ => h.rnarg hne
      narg := h.narg
      rlen := fun _ => rfl
      type := h.type
      noforward := h.noforward
      quit := h.quit
      keys := by simp [h.keys, keyBytes_last h.fresh hle hm.le]
      keys_le := by
        intro k hk hid
        simp only [List.length_nil]
        rcases List.mem_append.1 hk with hk | hk
        · have := h.keys_le k hk hid
          omega
        · rw [List.mem_singleton.1 hk]
          simp only
          omega }

end Flows

/-! ### The whole parser -/

/-- A state that is not the start is the parser's state as well. -/
theorem ReqRelAt.state_of {pre : List Mbuf} {b : Mbuf} {p : ℕ} {a : ReqScan} {r : ReqRegs}
    (h : ReqRelAt pre b p a r) {s : ReqState} (hs : a.state = s) (hne : s ≠ .start) :
    r.state = s := by
  rw [h.state_eq (hs ▸ hne), hs]

/-- **One iteration of the parser's loop simulates the machine.** -/
theorem redisReqStep_sim (size : ℕ) (pre : List Mbuf) (b : Mbuf) :
    StepSim (reqMachine size) (redisReqStep size b) b.data (ReqRelAt pre b) (ReqOutAt pre b) := by
  intro p ch a r h hch
  have hp : p < b.data.length := (List.getElem?_eq_some_iff.1 hch).1
  have hwf := h.wf
  -- where one byte is read, the byte's step is simulated
  have hone : ∀ {flow : Flow ReqRegs}, ByteSim pre b p flow (a.step size ch) →
      ReqFlowSim size pre b p a flow := fun hsim =>
    flowSim_of_byteSim (Nat.le_refl p) rfl h.wf hch rfl hsim
  have hturn : ∀ {turn : Turn}, a.tok = [] → a.state ≠ .start → a.state.kind ≠ .len →
      ByteSim pre b p (r.lfCase p ch turn) (a.lf ch turn) := fun htok hst hk =>
    byteSim_lf h htok hst hk
  have hlen : ∀ {bad bad' : ℕ → Bool} {s : ReqState}, a.state.kind = .len →
      (a.tok ≠ [] → bad a.tok.length = bad' a.tok.length) →
      ByteSim pre b p (r.lenCase p ch bad s) (a.len ch bad' s) := fun hk hbad =>
    byteSim_len h hch hk hbad
  change ReqFlowSim size pre b p a (redisReqStep size b p ch r)
  cases hst : a.state
  case start =>
    simp only [ReqScan.Wf, hst, ReqState.kind] at hwf
    have hflow : redisReqStep size b p ch r = r.nargCase p ch := by
      rcases h.state with hs | ⟨-, hs⟩
      · simp only [redisReqStep, hs, hst]
      · simp only [redisReqStep, hs]
    rw [hflow]
    refine hone ?_
    simp only [ReqScan.step, hst]
    refine byteSim_narg h hch (.inl ⟨hst, hwf.1⟩) (h.rlen fun hl => ?_)
    rw [hst] at hl
    cases hl
  all_goals
    have hrs := h.state_of hst (by decide)
    have hnarg := h.narg
    have htype := h.type
    have hrnarg := h.rnarg_eq hst (by decide)
    simp only [ReqScan.Wf, hst, ReqState.kind] at hwf
    simp only [redisReqStep, hrs]
  case narg =>
    refine hone ?_
    simp only [ReqScan.step, hst]
    refine byteSim_narg h hch (.inr ⟨hst, hwf.1⟩) (h.rlen fun hl => ?_)
    rw [hst] at hl
    cases hl
  case reqTypeLen =>
    refine hone ?_
    simp only [ReqScan.step, hst]
    refine hlen (by rw [hst]; rfl) fun htok => ?_
    simp only [h.rlen fun _ => htok]
  case keyLen =>
    refine hone ?_
    simp only [ReqScan.step, hst]
    refine hlen (by rw [hst]; rfl) fun htok => ?_
    simp only [h.rlen fun _ => htok]
  case arg1Len | arg2Len | arg3Len | argnLen =>
    refine hone ?_
    simp only [ReqScan.step, hst]
    exact hlen (by rw [hst]; rfl) fun _ => rfl
  case reqType =>
    exact flowSim_token h hp (by rw [hst]; rfl) (fun t c => by simp only [ReqScan.step, hst])
      fun m hpm hc => byteSim_gotReqType h hst hpm hc
  case key =>
    exact flowSim_token h hp (by rw [hst]; rfl) (fun t c => by simp only [ReqScan.step, hst])
      fun m hpm hc => byteSim_gotKey h hst hpm hc
  case arg1 | arg3 | argn =>
    exact flowSim_plainSkip h hp (.inl (by rw [hst]; rfl)) hwf
      fun n c => by simp only [ReqScan.step, hst]
  case arg2 => exact flowSim_arg2 h hp hst
  case reqTypeLenLf | keyLenLf | arg1LenLf | arg2LenLf | arg3LenLf | argnLenLf =>
    refine hone ?_
    simp only [ReqScan.step, hst]
    exact hturn hwf (by rw [hst]; decide) (by rw [hst]; decide)
  all_goals
    refine hone ?_
    simp only [ReqScan.step, hst, hnarg, htype, hrnarg]
    exact hturn hwf.1 (by rw [hst]; decide) (by rw [hst]; decide)

/-- The registers of a message represent a state of the machine. -/
def ReqRel (mhdr : List Mbuf) (p : ℕ) (a : ReqScan) (r : ReqRegs) : Prop :=
  ∃ pre b, mhdr = pre ++ [b] ∧ ReqRelAt pre b p a r

/-- The registers of a complete request represent its result. -/
structure ReqOutRel (mhdr : List Mbuf) (o : ReqOut) (r : ReqRegs) : Prop where
  type : r.type = o.type
  narg : r.narg = o.narg
  noforward : r.noforward = o.noforward
  quit : r.quit = o.quit
  keys : r.keys.map (keyBytes mhdr) = o.keys.map some

theorem reqRel_iff {pre : List Mbuf} {b : Mbuf} {p : ℕ} {a : ReqScan} {r : ReqRegs} :
    ReqRel (pre ++ [b]) p a r ↔ ReqRelAt pre b p a r := by
  constructor
  · rintro ⟨pre', b', heq, h⟩
    obtain ⟨rfl, hb⟩ := List.append_inj' heq rfl
    cases hb
    exact h
  · exact fun h => ⟨pre, b, rfl, h⟩

/-- A state in which the parser can be interrupted by a full buffer. -/
def ReqScan.Fine (size : ℕ) (a : ReqScan) : Prop := a.tok.length < size ∧ a.Movable

theorem ReqScan.rewind_wf {a : ReqScan} (hwf : a.Wf) : a.rewind.Wf := by
  cases hk : a.state.kind <;> simp only [ReqScan.Wf, hk] at hwf <;> simp only [ReqScan.rewind, hk]
  case start => exact ⟨rfl, rfl, hwf.2.2⟩
  case narg => exact ⟨rfl, rfl, hwf.2⟩
  all_goals simp [ReqScan.Wf, hk, hwf]

section Parser

variable {size : ℕ} {pre : List Mbuf} {b nb : Mbuf} {p : ℕ} {a a' : ReqScan} {r : ReqRegs}

theorem redisParseReq_done {o : ReqOut} {rest : List Byte} (hgone : b.gone = [])
    (h : ReqRelAt pre b p a r) (hp : p ≤ b.data.length)
    (hrun : (reqMachine size).run a (b.data.drop p) = .done o rest) :
    ∃ r', redisParseReq.parse size b p r = (.ok, b.data.length - rest.length, r') ∧
      ReqOutRel (pre ++ [b.truncate (b.data.length - rest.length)]) o r' := by
  obtain ⟨r', hparse, hout⟩ := scanParse_done ReqRegs.token (fun r => { r with token := none })
    (fun r => { r with state := .start, token := none }) (redisReqStep_sim size pre b) h hp hrun
  have hdata : (b.truncate (b.data.length - rest.length)).data =
      b.data.take (b.data.length - rest.length) := Mbuf.truncate_data (by simp [hgone])
  refine ⟨_, hparse, hout.type, hout.narg, hout.noforward, hout.quit, ?_⟩
  refine keys_replace hout.keys rfl fun k hk hid => ?_
  have hle := hout.keys_le k hk hid
  rw [hdata]
  refine ⟨?_, slice_take hle⟩
  rw [List.length_take]
  omega

/-- The registers at the end of the buffer, and what the call reports. -/
theorem redisParseReq_end (h : ReqRelAt pre b p a r) (hp : p ≤ b.data.length)
    (hrun : (reqMachine size).run a (b.data.drop p) = .more a') :
    ∃ r', ReqRelAt pre b b.data.length a' r' ∧
      redisParseReq.parse size b p r =
        if a'.tok ≠ [] ∧ b.data.length = size then
          (.repair, b.data.length - a'.tok.length, { r' with token := none })
        else (.again, b.data.length, r') := by
  obtain ⟨r', hrel, hparse⟩ := scanParse_end ReqRegs.token (fun r => { r with token := none })
    (fun r => { r with state := .start, token := none }) (redisReqStep_sim size pre b) h hp hrun
  refine ⟨r', hrel, hparse.trans ?_⟩
  by_cases htok : a'.tok = []
  · simp [hrel.token_none htok, htok]
  · simp only [hrel.token_some htok, ne_eq, htok, not_false_eq_true, true_and, mbufFull,
      beq_iff_eq]

/-- The open token is moved: the registers then represent the state before its first byte. -/
theorem ReqRelAt.moved (hgone : b.gone = []) (h : ReqRelAt pre b b.data.length a r)
    (htok : a.tok ≠ []) (hne : ∀ x ∈ pre ++ [b], x.id ≠ nb.id) :
    ReqRelAt (pre ++ [b.truncate (b.data.length - a.tok.length)]) nb 0 a.rewind
      { r with token := none } := by
  have hle := h.tok_le
  have hdata : (b.truncate (b.data.length - a.tok.length)).data =
      b.data.take (b.data.length - a.tok.length) := Mbuf.truncate_data (by simp [hgone])
  have hkind : a.state.kind = .narg ∨ a.state.kind = .len ∨ a.state.kind = .token ∨
      a.state.kind = .arg2 := by
    have hwf := h.wf
    cases hk : a.state.kind <;> simp_all [ReqScan.Wf]
  have hkeys : r.keys.map (keyBytes (pre ++ [b.truncate (b.data.length - a.tok.length)])) =
      a.keys.map some := by
    refine keys_replace h.keys rfl fun k hk hid => ?_
    have hk' := h.keys_le k hk hid
    rw [hdata]
    refine ⟨?_, slice_take hk'⟩
    rw [List.length_take]
    omega
  have hrew : a.rewind.tok = [] ∧ a.rewind.narg = a.narg ∧ a.rewind.type = a.type ∧
      a.rewind.noforward = a.noforward ∧ a.rewind.quit = a.quit ∧ a.rewind.keys = a.keys := by
    rcases hkind with hk | hk | hk | hk <;> simp [ReqScan.rewind, hk]
  obtain ⟨hrtok, hrnarg, hrtype, hrnf, hrquit, hrkeys⟩ := hrew
  have hne' : ∀ x ∈ pre ++ [b.truncate (b.data.length - a.tok.length)], x.id ≠ nb.id := by
    intro x hx
    rcases List.mem_append.1 hx with hx | hx
    · exact hne x (by simp [hx])
    · rw [List.mem_singleton.1 hx]
      exact hne b (by simp)
  have hrstate : ∀ s, a.state = s → s ≠ .start → r.state = s := fun s hs hns =>
    h.state_of hs hns
  exact
    { wf := ReqScan.rewind_wf h.wf
      fresh := hne'
      state := by
        rcases hkind with hk | hk | hk | hk
        · have hst : a.state = .narg := by
            cases hst : a.state <;> rw [hst] at hk <;> first | rfl | cases hk
          exact .inr ⟨by simp [ReqScan.rewind, hk], hrstate _ hst (by decide)⟩
        all_goals
          refine .inl ?_
          simp only [ReqScan.rewind, hk]
          exact hrstate _ rfl fun hs => by rw [hs] at hk; cases hk
      token := by simp [hrtok]
      tok_le := by simp [hrtok]
      tok_bytes := by simp [hrtok]
      rnarg := by
        intro hns
        rcases hkind with hk | hk | hk | hk <;> simp only [ReqScan.rewind, hk] at hns ⊢
        · exact absurd rfl hns
        all_goals exact h.rnarg hns
      narg := by rw [hrnarg, ← h.narg]
      rlen := by
        intro hlen
        rcases hkind with hk | hk | hk | hk <;> simp only [ReqScan.rewind, hk] at hlen ⊢
        · exact h.rlen fun _ => htok
        · exact absurd rfl (hlen trivial)
        all_goals exact h.rlen fun _ => htok
      type := by rw [hrtype, ← h.type]
      noforward := by rw [hrnf, ← h.noforward]
      quit := by rw [hrquit, ← h.quit]
      keys := by
        rw [hrkeys]
        exact keys_append hkeys [nb]
      keys_le := by
        intro k hk hid
        exact absurd hid (keys_ne hkeys hne' k hk) }

end Parser

/-- Outside a token, the registers also stand for the state in a new buffer. -/
theorem ReqRel.jump {pre : List Mbuf} {b nb : Mbuf} {p : ℕ} {a : ReqScan} {r : ReqRegs}
    (h : ReqRel (pre ++ [b]) p a r) (htok : a.tok = []) (hne : ∀ x ∈ pre ++ [b], x.id ≠ nb.id) :
    ReqRel (pre ++ [b] ++ [nb]) 0 a r := by
  rw [reqRel_iff] at h ⊢
  exact
    { h with
      fresh := hne
      token := h.token_none htok ▸ by simp [htok]
      tok_le := by simp [htok]
      tok_bytes := by simp [htok]
      keys := keys_append h.keys [nb]
      keys_le := fun k hk hid => absurd hid (keys_ne h.keys hne k hk) }

/-- **The parser simulates the machine.** -/
theorem redisParseReq_sim (size : ℕ) :
    Simulation size redisParseReq (reqMachine size) ReqRel ReqOutRel where
  start b := by
    refine ⟨[], b, rfl, ?_⟩
    exact
      { wf := ⟨rfl, rfl, rfl⟩
        fresh := by simp
        state := .inl rfl
        token := rfl
        tok_le := Nat.zero_le _
        tok_bytes := slice_self _ _
        rnarg := fun _ => rfl
        narg := rfl
        rlen := fun _ => rfl
        type := rfl
        noforward := rfl
        quit := rfl
        keys := rfl
        keys_le := by simp [redisParseReq] }
  grow {pre b p a r} bs h hp := by
    rw [reqRel_iff] at h ⊢
    have hle := h.tok_le
    exact
      { h with
        fresh := h.fresh
        tok_bytes := by rw [mbufCopy_data, slice_append_left hp, h.tok_bytes]
        keys := keys_replace h.keys rfl fun k hk hid => by
          have hk' := h.keys_le k hk hid
          rw [mbufCopy_data, List.length_append]
          exact ⟨by omega, slice_append_left (by omega)⟩
        keys_le := h.keys_le }
  move h htok hne := h.jump htok hne
  parse_done hgone h hp hrun := redisParseReq_done hgone (reqRel_iff.1 h) hp hrun
  parse_fail {pre b} _ _ _ _ h hp hrun :=
    scanParse_fail _ _ _ (redisReqStep_sim size pre b) (reqRel_iff.1 h) hp hrun
  parse_more {pre b p a r a'} _ h hp hrun hcase := by
    obtain ⟨r', hrel, hparse⟩ := redisParseReq_end (reqRel_iff.1 h) hp hrun
    refine ⟨r', ?_, reqRel_iff.2 hrel⟩
    rw [hparse, if_neg]
    rintro ⟨htok, hfull⟩
    rcases hcase with hcase | hcase
    · exact htok hcase
    · exact hcase hfull
  parse_repair {pre b p a r a'} hgone h hp hrun htok hfull := by
    obtain ⟨r', hrel, hparse⟩ := redisParseReq_end (reqRel_iff.1 h) hp hrun
    refine ⟨?_, { r' with token := none }, ?_, fun nb _ hne => ?_⟩
    · have := hrel.tok_bytes
      rwa [slice, List.take_length, hfull] at this
    · rw [hparse, if_pos ⟨htok, hfull⟩, hfull]
      rfl
    · have := hrel.moved hgone htok hne
      rw [hfull] at this
      have hcons : pre ++ [b.truncate (size - a'.tok.length), nb] =
          pre ++ [b.truncate (size - a'.tok.length)] ++ [nb] := by simp
      change ReqRel (pre ++ [b.truncate (size - a'.tok.length), nb]) 0 a'.rewind _
      rw [hcons]
      exact reqRel_iff.2 this

end CacheProxy
