/-
**The keys of a memcache request.**

A key is what stands between blanks on the command line.  `memcache_parse_req` measures it by the
pointer to its first byte, and forgets that pointer when a buffer is full.  If the key is moved to
the next buffer it is read again from its first byte, but a key that fills a whole buffer is not:
what is taken for the key then begins somewhere inside of it, and its length is measured from there.

Main definitions:

* `lineFields`, `keyFields` — the fields of a line, and those that are the keys of a command;
* `LongKey` — a key field is as long as a buffer;
* `Keyed` — what is known of the bytes read and the keys found, in every state.

Main results:

* `Keyed.step` — one byte;
* `memcacheReq_keys` — **the keys are the fields of the line**, exactly if none of these is as long
  as a buffer;
* `cut_longKey` — two bytes of a longer key.
-/

import CacheProxy.MemcacheCut

namespace CacheProxy

open Decimal

/-! ### Fields of a line -/

/-- A byte is added to the fields that are complete and the one that is not. -/
def splitStep (s : List (List Byte) × List Byte) (c : Byte) : List (List Byte) × List Byte :=
  if c = SP then if s.2 = [] then s else (s.1 ++ [s.2], []) else (s.1, s.2 ++ [c])

/-- The complete fields of a line, and the last. -/
def splitLine (u : List Byte) : List (List Byte) × List Byte := u.foldl splitStep ([], [])

/-- **The fields of a line**: what stands between blanks. -/
def lineFields (u : List Byte) : List (List Byte) :=
  (splitLine u).1 ++ if (splitLine u).2 = [] then [] else [(splitLine u).2]

/-- **The fields that are keys**: all behind the name of a retrieval, and one behind the others. -/
def keyFields (t : MsgType) (line : List Byte) : List (List Byte) :=
  if t = .reqMcQuit then []
  else if memcacheRetrieval t then (lineFields line).drop 1
  else ((lineFields line).drop 1).take 1

/-- **A key field is as long as a buffer**, in the line so far. -/
def LongKey (size : ℕ) (t : MsgType) (u : List Byte) : Prop :=
  ∃ line rest, u = line ++ rest ∧ CR ∉ line ∧ (rest = [] ∨ rest.head? = some CR) ∧
    ∃ key ∈ keyFields t line, size ≤ key.length

section Lines

variable {u : List Byte} {c : Byte}

theorem splitLine_concat : splitLine (u ++ [c]) = splitStep (splitLine u) c := by
  rw [splitLine, List.foldl_append]
  rfl

theorem splitStep_blank {fs : List (List Byte)} : splitStep (fs, []) SP = (fs, []) := by
  rw [splitStep, if_pos rfl, if_pos rfl]

theorem splitStep_end {fs : List (List Byte)} {f : List Byte} (hf : f ≠ []) :
    splitStep (fs, f) SP = (fs ++ [f], []) := by
  rw [splitStep, if_pos rfl, if_neg hf]

theorem splitStep_more {fs : List (List Byte)} {f : List Byte} (hc : c ≠ SP) :
    splitStep (fs, f) c = (fs, f ++ [c]) := by
  rw [splitStep, if_neg hc]

/-- Complete fields stay. -/
theorem splitStep_fst (s : List (List Byte) × List Byte) :
    ∃ more, (splitStep s c).1 = s.1 ++ more := by
  unfold splitStep
  split
  · split
    · exact ⟨[], by simp⟩
    · exact ⟨[s.2], rfl⟩
  · exact ⟨[], by simp⟩

/-- With a byte more the fields are the same, or the last is longer. -/
theorem lineFields_concat : lineFields (u ++ [c]) = lineFields u ∨
    ∃ fs f, (lineFields u = fs ∨ lineFields u = fs ++ [f]) ∧
      lineFields (u ++ [c]) = fs ++ [f ++ [c]] := by
  unfold lineFields
  rw [splitLine_concat]
  generalize splitLine u = s
  obtain ⟨fs, cur⟩ := s
  by_cases hc : c = SP
  · left
    subst hc
    by_cases hcur : cur = []
    · rw [hcur, splitStep_blank]
    · rw [splitStep_end hcur]
      simp [hcur]
  · right
    rw [splitStep_more hc]
    refine ⟨fs, cur, ?_, by simp⟩
    by_cases hcur : cur = []
    · exact .inl (by simp [hcur])
    · exact .inr (by simp [hcur])

/-- **The fields that are keys**, by their places. -/
theorem mem_keyFields_iff {t : MsgType} {key : List Byte} : key ∈ keyFields t u ↔ t ≠ .reqMcQuit ∧
    ∃ i, (memcacheRetrieval t = true ∨ i = 0) ∧ (lineFields u)[i + 1]? = some key := by
  unfold keyFields
  split_ifs with hquit hretr
  · simp [hquit]
  · simp only [ne_eq, hquit, not_false_eq_true, hretr, true_or, true_and, List.mem_iff_getElem?,
      List.getElem?_drop, Nat.add_comm 1]
  · simp only [ne_eq, hquit, not_false_eq_true, hretr, true_and, List.mem_iff_getElem?,
      List.getElem?_take, List.getElem?_drop, Nat.add_comm 1]
    constructor
    · rintro ⟨i, hi⟩
      split_ifs at hi with hlt
      exact ⟨i, by omega, hi⟩
    · rintro ⟨i, hzero, hi⟩
      obtain rfl := hzero.resolve_left nofun
      exact ⟨0, by simpa using hi⟩

/-- Key fields of a line become no shorter. -/
theorem keyFields_concat {t : MsgType} {key : List Byte} (h : key ∈ keyFields t u) :
    ∃ key' ∈ keyFields t (u ++ [c]), key.length ≤ key'.length := by
  obtain ⟨hquit, i, hi, hget⟩ := mem_keyFields_iff.mp h
  have hfind (key' : List Byte) (hget' : (lineFields (u ++ [c]))[i + 1]? = some key')
      (hle : key.length ≤ key'.length) : ∃ key' ∈ keyFields t (u ++ [c]),
      key.length ≤ key'.length :=
    ⟨key', mem_keyFields_iff.mpr ⟨hquit, i, hi, hget'⟩, hle⟩
  rcases lineFields_concat (u := u) (c := c) with heq | ⟨fs, f, hold, heq⟩
  · exact hfind key (heq ▸ hget) le_rfl
  · by_cases hlt : i + 1 < fs.length
    · refine hfind key ?_ le_rfl
      rw [heq, List.getElem?_append_left hlt]
      rcases hold with hold | hold
      · rwa [hold] at hget
      · rwa [hold, List.getElem?_append_left hlt] at hget
    · -- The key is the last field.
      rcases hold with hold | hold
      · rw [hold, List.getElem?_eq_none (not_lt.mp hlt)] at hget
        cases hget
      · rw [hold, List.getElem?_append_right (not_lt.mp hlt), List.getElem?_singleton] at hget
        split_ifs at hget with hzero
        cases hget
        refine hfind (key ++ [c]) ?_ (by simp)
        rw [heq, List.getElem?_append_right (not_lt.mp hlt), hzero]
        rfl

/-- **A long key field stays long.** -/
theorem LongKey.concat {size : ℕ} {t : MsgType} (h : LongKey size t u) :
    LongKey size t (u ++ [c]) := by
  obtain ⟨line, rest, rfl, hline, hrest, key, hkey, hlen⟩ := h
  by_cases hmore : rest = [] ∧ c ≠ CR
  · obtain ⟨rfl, hc⟩ := hmore
    obtain ⟨key', hkey', hle⟩ := keyFields_concat (c := c) hkey
    exact ⟨line ++ [c],
      [], by simp, by simp [hline, Ne.symm hc], .inl rfl, key', hkey', hlen.trans hle⟩
  · refine ⟨line, rest ++ [c], by simp, hline, .inr ?_, key, hkey, hlen⟩
    rcases hrest with rfl | hhead
    · have hc : c = CR := by simpa using hmore
      simp [hc]
    · cases rest with
      | nil => cases hhead
      | cons d rest => exact hhead

/-- **Where the fields are**: each complete one has a blank behind it, and each but the first a
blank before it; so has the last. -/
theorem splitLine_places (u : List Byte) :
    (∀ f ∈ (splitLine u).1.drop 1, ∃ pre post, u = pre ++ SP :: f ++ SP :: post) ∧
      ((splitLine u).1 ≠ [] → (splitLine u).2 ≠ [] → ∃ pre, u = pre ++ SP :: (splitLine u).2) ∧
      ((splitLine u).1 ≠ [] → (splitLine u).2 = [] → ∃ pre, u = pre ++ [SP]) := by
  induction u using List.reverseRecOn with
  | nil => simp [splitLine]
  | append_singleton u c ih =>
    rw [splitLine_concat]
    generalize splitLine u = s at ih ⊢
    obtain ⟨fs, cur⟩ := s
    obtain ⟨hdone, hlast, hblank⟩ := ih
    have hkeep (f : List Byte) (hf : f ∈ fs.drop 1) : ∃ pre post,
      u ++ [c] = pre ++ SP :: f ++ SP :: post := by
      obtain ⟨pre, post, heq⟩ := hdone f hf
      exact ⟨pre, post ++ [c], by rw [heq]; simp⟩
    by_cases hc : c = SP
    · subst hc
      by_cases hcur : cur = []
      · rw [hcur, splitStep_blank]
        exact ⟨hkeep, fun _ h => absurd rfl h, fun _ _ => ⟨u, rfl⟩⟩
      · rw [splitStep_end hcur]
        refine ⟨fun f hf => ?_, fun _ h => absurd rfl h, fun _ _ => ⟨u, rfl⟩⟩
        cases fs with
        | nil => simp at hf
        | cons =>
          simp only [List.cons_append, List.drop_succ_cons, List.drop_zero, List.mem_append,
            List.mem_singleton] at hf
          rcases hf with hf | rfl
          · exact hkeep f hf
          · obtain ⟨pre, heq⟩ := hlast (by simp) hcur
            exact ⟨pre, [], by rw [← heq]⟩
    · rw [splitStep_more hc]
      refine ⟨hkeep, fun hne _ => ?_, fun _ h => by simp at h⟩
      by_cases hcur : cur = []
      · obtain ⟨pre, heq⟩ := hblank hne hcur
        exact ⟨pre, by simp [heq, hcur]⟩
      · obtain ⟨pre, heq⟩ := hlast hne hcur
        exact ⟨pre, by simp only at heq; simp [heq]⟩

/-- **A field behind the first** has a blank before it, and behind it a blank or the end of the
line. -/
theorem mem_lineFields_tail {f : List Byte} (hf : f ∈ (lineFields u).drop 1) (c : Byte) :
    ∃ pre d post, u ++ [c] = pre ++ SP :: f ++ d :: post ∧ (d = SP ∨ d = c) := by
  obtain ⟨hdone, hlast, -⟩ := splitLine_places u
  have hold (h : f ∈ (splitLine u).1.drop 1) :
      ∃ pre d post, u ++ [c] = pre ++ SP :: f ++ d :: post ∧ (d = SP ∨ d = c) := by
    obtain ⟨pre, post, heq⟩ := hdone f h
    exact ⟨pre, SP, post ++ [c], by rw [heq]; simp, .inl rfl⟩
  unfold lineFields at hf
  split at hf
  · rw [List.append_nil] at hf
    exact hold hf
  · next hcur =>
    cases hfs : (splitLine u).1 with
    | nil => simp [hfs] at hf
    | cons =>
      rw [hfs, List.cons_append, List.drop_succ_cons, List.drop_zero, List.mem_append,
        List.mem_singleton] at hf
      rcases hf with hf | rfl
      · exact hold (by rw [hfs]; simpa using hf)
      · obtain ⟨pre, heq⟩ := hlast (by rw [hfs]; simp) hcur
        exact ⟨pre, c, [], by rw [← heq], .inr rfl⟩

end Lines

/-! ### States -/

/-- The registers that an action leads to. -/
def Act.Into {κ : Type} (p : κ → Prop) : Act κ → Prop
  | .next k _ _ _ => p k
  | _ => True

theorem Act.into_cleared {κ : Type} {p : κ → Prop} {x : Act κ} {key : Bool} :
    (x.cleared key).Into p ↔ x.Into p := by
  cases x with
  | next k m => cases m <;> exact Iff.rfl
  | skip | done | error => exact Iff.rfl

/-- The name is complete, and the type is `t`. -/
def McReqCore.Named (t : MsgType) (k : McReqCore) : Prop :=
  k.type = t ∧ k.state ≠ .start ∧ k.state ≠ .reqType

namespace McReqCore

variable (k : McReqCore) (c : Byte)

theorem crlfCase_named : (k.crlfCase c).Into (Named k.type) := by
  unfold crlfCase
  split_ifs <;> first | trivial | exact ⟨rfl, nofun, nofun⟩

theorem runtoCrlfCase_named : (k.runtoCrlfCase c).Into (Named k.type) := by
  unfold runtoCrlfCase
  split_ifs <;> first | trivial | exact ⟨rfl, nofun, nofun⟩

theorem afterNoreplyCase_named : (k.afterNoreplyCase c).Into (Named k.type) := by
  unfold afterNoreplyCase
  split_ifs <;> first | trivial | exact ⟨rfl, nofun, nofun⟩

theorem digitsCase_named {s s' : McReqState} (hs : s ≠ .start ∧ s ≠ .reqType)
    (hs' : s' ≠ .start ∧ s' ≠ .reqType) : (k.digitsCase c s s').Into (Named k.type) := by
  unfold digitsCase
  split_ifs
  · exact ⟨rfl, hs'⟩
  · trivial
  · exact ⟨rfl, hs⟩

theorem spacesBeforeNumCase_named : (k.spacesBeforeNumCase c).Into (Named k.type) := by
  unfold spacesBeforeNumCase
  split_ifs <;> first | trivial | exact ⟨rfl, nofun, nofun⟩

theorem afterKey_named : k.afterKey ≠ .start ∧ k.afterKey ≠ .reqType := by
  unfold afterKey
  split_ifs <;> exact ⟨nofun, nofun⟩

theorem spacesBeforeKeysCase_named {x : Act McReqCore} (hx : x.Into (Named k.type)) :
    (k.spacesBeforeKeysCase c x).Into (Named k.type) := by
  unfold spacesBeforeKeysCase
  split_ifs
  · exact ⟨rfl, nofun, nofun⟩
  · exact ⟨rfl, nofun, nofun⟩
  · exact Act.into_cleared.2 hx

theorem keyCase_named (tok : Option (List Byte)) : (k.keyCase c tok).Into (Named k.type) := by
  unfold keyCase
  dsimp only
  split_ifs
  · trivial
  · trivial
  · trivial
  · split
    · exact Act.into_cleared.2 (spacesBeforeNumCase_named _ c)
    · exact Act.into_cleared.2 (spacesBeforeKeysCase_named _ c (x := .error) trivial)
    · exact Act.into_cleared.2 (runtoCrlfCase_named _ c)
  · exact ⟨rfl, afterKey_named _⟩
  · exact ⟨rfl, nofun, nofun⟩
  · exact ⟨rfl, nofun, nofun⟩

theorem noreplyCase_named (tok : Option (List Byte)) :
    (k.noreplyCase c tok).Into (Named k.type) := by
  unfold noreplyCase
  split_ifs
  · exact Act.into_cleared.2 (afterNoreplyCase_named _ c)
  · trivial
  · exact ⟨rfl, nofun, nofun⟩

end McReqCore

open McReqCore in
/-- The type is fixed with the name. -/
theorem memcacheReqAct_named {k : McReqCore} (tok : Option (List Byte)) (c : Byte)
    (hs : k.state ≠ .start ∧ k.state ≠ .reqType) :
    (memcacheReqAct k tok c).Into (Named k.type) := by
  have hrun : ((k.runtoCrlfCase c).cleared false).Into (Named k.type) :=
    Act.into_cleared.2 (k.runtoCrlfCase_named c)
  unfold memcacheReqAct
  split
  · next h => exact absurd h hs.1
  · next h => exact absurd h hs.2
  · split_ifs
    · exact Act.into_cleared.2 (k.keyCase_named c none)
    · exact ⟨rfl, nofun, nofun⟩
  · exact k.keyCase_named c tok
  · exact k.spacesBeforeKeysCase_named c (k.keyCase_named c none)
  · exact k.digitsCase_named c ⟨nofun, nofun⟩ ⟨nofun, nofun⟩
  · split_ifs <;> first | trivial | exact ⟨rfl, nofun, nofun⟩
  · exact k.digitsCase_named c ⟨nofun, nofun⟩ ⟨nofun, nofun⟩
  · split_ifs <;> first | trivial | exact ⟨rfl, nofun, nofun⟩
  · split_ifs <;> first | trivial | exact ⟨rfl, nofun, nofun⟩
  · split_ifs
    · exact ⟨rfl, nofun, nofun⟩
    · trivial
    · exact Act.into_cleared.2 (k.digitsCase_named c ⟨nofun, nofun⟩ ⟨nofun, nofun⟩)
    · exact hrun
    · trivial
  · exact k.digitsCase_named c ⟨nofun, nofun⟩ ⟨nofun, nofun⟩
  · split_ifs <;> first | trivial | exact hrun | exact ⟨rfl, nofun, nofun⟩
  · split_ifs <;> first | trivial | exact ⟨rfl, nofun, nofun⟩
  · trivial
  · exact k.spacesBeforeNumCase_named c
  · split_ifs <;> first | trivial | exact hrun | exact ⟨rfl, nofun, nofun⟩
  · exact k.runtoCrlfCase_named c
  · exact k.crlfCase_named c
  · exact k.noreplyCase_named c tok
  · exact k.afterNoreplyCase_named c
  · split_ifs <;> trivial

theorem Act.cleared_ne_done {κ : Type} {x : Act κ} {key : Bool} (h : x ≠ .done) :
    x.cleared key ≠ .done := by
  cases x with
  | next k m => cases m <;> exact nofun
  | skip | error => exact nofun
  | done => exact absurd rfl h

namespace McReqCore

variable (k : McReqCore) (c : Byte)

theorem crlfCase_ne_done : k.crlfCase c ≠ .done := by
  unfold crlfCase
  split_ifs <;> exact nofun

theorem runtoCrlfCase_ne_done : k.runtoCrlfCase c ≠ .done := by
  unfold runtoCrlfCase
  split_ifs <;> exact nofun

theorem afterNoreplyCase_ne_done : k.afterNoreplyCase c ≠ .done := by
  unfold afterNoreplyCase
  split_ifs <;> exact nofun

theorem digitsCase_ne_done (s s' : McReqState) : k.digitsCase c s s' ≠ .done := by
  unfold digitsCase
  split_ifs <;> exact nofun

theorem spacesBeforeNumCase_ne_done : k.spacesBeforeNumCase c ≠ .done := by
  unfold spacesBeforeNumCase
  split_ifs <;> exact nofun

theorem spacesBeforeKeysCase_ne_done {x : Act McReqCore} (hx : x ≠ .done) :
    k.spacesBeforeKeysCase c x ≠ .done := by
  unfold spacesBeforeKeysCase
  split_ifs
  · exact nofun
  · exact nofun
  · exact Act.cleared_ne_done hx

theorem keyCase_ne_done (tok : Option (List Byte)) : k.keyCase c tok ≠ .done := by
  unfold keyCase
  dsimp only
  split_ifs
  · exact nofun
  · exact nofun
  · exact nofun
  · split
    · exact Act.cleared_ne_done (spacesBeforeNumCase_ne_done _ c)
    · exact Act.cleared_ne_done (spacesBeforeKeysCase_ne_done _ c nofun)
    · exact Act.cleared_ne_done (runtoCrlfCase_ne_done _ c)
  · exact nofun
  · exact nofun
  · exact nofun

theorem reqTypeCase_ne_done (tok : Option (List Byte)) : k.reqTypeCase c tok ≠ .done := by
  unfold reqTypeCase
  split
  · cases tok with
    | none => exact nofun
    | some m =>
      dsimp only
      split
      · exact Act.cleared_ne_done (crlfCase_ne_done _ c)
      · split_ifs <;> exact nofun
  · split_ifs <;> exact nofun

theorem noreplyCase_ne_done (tok : Option (List Byte)) : k.noreplyCase c tok ≠ .done := by
  unfold noreplyCase
  split_ifs
  · exact Act.cleared_ne_done (afterNoreplyCase_ne_done _ c)
  · exact nofun
  · exact nofun

end McReqCore

/-- A request ends at the line feed behind the last carriage return. -/
theorem memcacheReqAct_done {k : McReqCore} {tok : Option (List Byte)} {c : Byte}
    (h : memcacheReqAct k tok c = .done) : k.state = .almostDone ∧ c = LF := by
  have hrun : (k.runtoCrlfCase c).cleared false ≠ .done :=
    Act.cleared_ne_done (k.runtoCrlfCase_ne_done c)
  unfold memcacheReqAct at h
  split at h
  · split_ifs at h <;> cases h
  · exact absurd h (k.reqTypeCase_ne_done c tok)
  · split_ifs at h
    · exact absurd h (Act.cleared_ne_done (k.keyCase_ne_done c none))
    · cases h
  · exact absurd h (k.keyCase_ne_done c tok)
  · exact absurd h (k.spacesBeforeKeysCase_ne_done c (k.keyCase_ne_done c none))
  · exact absurd h (k.digitsCase_ne_done c _ _)
  · split_ifs at h <;> cases h
  · exact absurd h (k.digitsCase_ne_done c _ _)
  · split_ifs at h <;> cases h
  · split_ifs at h <;> cases h
  · split_ifs at h
    · cases h
    · exact absurd h (Act.cleared_ne_done (k.digitsCase_ne_done c _ _))
    · exact absurd h hrun
  · exact absurd h (k.digitsCase_ne_done c _ _)
  · split_ifs at h
    · cases h
    · exact absurd h hrun
  · split_ifs at h
    cases h
  · cases h
  · exact absurd h (k.spacesBeforeNumCase_ne_done c)
  · split_ifs at h
    · cases h
    · exact absurd h hrun
  · exact absurd h (k.runtoCrlfCase_ne_done c)
  · exact absurd h (k.crlfCase_ne_done c)
  · exact absurd h (k.noreplyCase_ne_done c tok)
  · exact absurd h (k.afterNoreplyCase_ne_done c)
  · next hs =>
    split_ifs at h with hc
    · exact ⟨hs, hc⟩

/-- The states behind the keys. -/
def McReqState.Late (s : McReqState) : Prop :=
  s ∉ [McReqState.start, .reqType, .spacesBeforeKey, .key, .spacesBeforeKeys]

instance (s : McReqState) : Decidable s.Late := inferInstanceAs (Decidable (_ ∉ _))

/-- **An action that stays behind the keys.** -/
def Act.Late (t : MsgType) : Act McReqCore → Prop
  | .next k _ key _ => k.state.Late ∧ k.type = t ∧ key = false
  | .skip _ left got => (∀ j, (left j).state.Late ∧ (left j).type = t) ∧
      ∀ c k, got c = some k → k.state.Late ∧ k.type = t
  | _ => True

theorem Act.Late.cleared {t : MsgType} {x : Act McReqCore} (h : x.Late t) :
    (x.cleared false).Late t := by
  cases x with
  | next k m =>
    cases m with
    | keep => exact ⟨h.1, h.2.1, rfl⟩
    | set => exact ⟨h.1, h.2.1, rfl⟩
    | clear => exact ⟨h.1, h.2.1, rfl⟩
  | skip => exact h
  | done | error => trivial

namespace McReqCore

variable (k : McReqCore) (c : Byte)

theorem goto_late {s : McReqState} (hs : s.Late) : (k.goto s).Late k.type := ⟨hs, rfl, rfl⟩

theorem opens_late {s : McReqState} (hs : s.Late) : (k.opens s).Late k.type := ⟨hs, rfl, rfl⟩

theorem closes_late {s : McReqState} (hs : s.Late) : (k.closes s).Late k.type := ⟨hs, rfl, rfl⟩

theorem crlfCase_late : (k.crlfCase c).Late k.type := by
  unfold crlfCase
  split_ifs
  · exact k.goto_late (by decide)
  · exact k.goto_late (by decide)
  · trivial

theorem runtoCrlfCase_late : (k.runtoCrlfCase c).Late k.type := by
  unfold runtoCrlfCase
  split_ifs
  · exact k.goto_late (by decide)
  · exact k.opens_late (by decide)
  · trivial
  · exact k.goto_late (by decide)
  · exact k.goto_late (by decide)
  · trivial

theorem afterNoreplyCase_late : (k.afterNoreplyCase c).Late k.type := by
  unfold afterNoreplyCase
  split_ifs
  · exact k.goto_late (by decide)
  · exact k.goto_late (by decide)
  · exact k.goto_late (by decide)
  · trivial

theorem digitsCase_late {s s' : McReqState} (hs : s.Late) (hs' : s'.Late) :
    (k.digitsCase c s s').Late k.type := by
  unfold digitsCase
  split_ifs
  · exact k.opens_late hs'
  · trivial
  · exact k.goto_late hs

theorem spacesBeforeNumCase_late : (k.spacesBeforeNumCase c).Late k.type := by
  unfold spacesBeforeNumCase
  split_ifs
  · exact k.opens_late (by decide)
  · trivial
  · exact k.goto_late (by decide)

end McReqCore

open McReqCore in
/-- **No key is found behind the keys.** -/
theorem memcacheReqAct_late {k : McReqCore} (hs : k.state.Late) (tok : Option (List Byte))
    (c : Byte) :
    (memcacheReqAct k tok c).Late k.type := by
  have hrun : ((k.runtoCrlfCase c).cleared false).Late k.type := (k.runtoCrlfCase_late c).cleared
  unfold memcacheReqAct
  split
  · next h => exact absurd (h ▸ hs) (by decide)
  · next h => exact absurd (h ▸ hs) (by decide)
  · next h => exact absurd (h ▸ hs) (by decide)
  · next h => exact absurd (h ▸ hs) (by decide)
  · next h => exact absurd (h ▸ hs) (by decide)
  · exact k.digitsCase_late c (by decide) (by decide)
  · split_ifs
    · exact k.goto_late (by decide)
    · exact k.closes_late (by decide)
    · trivial
  · exact k.digitsCase_late c (by decide) (by decide)
  · split_ifs
    · exact k.goto_late (by decide)
    · exact k.closes_late (by decide)
    · trivial
  · split_ifs
    · exact goto_late _ (by decide)
    · trivial
    · exact k.goto_late (by decide)
  · split_ifs
    · exact goto_late _ (by decide)
    · trivial
    · exact (k.digitsCase_late c (by decide) (by decide)).cleared
    · exact hrun
    · trivial
  · exact k.digitsCase_late c (by decide) (by decide)
  · split_ifs
    · exact k.goto_late (by decide)
    · exact hrun
    · trivial
  · split_ifs
    · exact k.goto_late (by decide)
    · trivial
  · next h =>
    refine ⟨fun j => ⟨hs, rfl⟩, fun m k' hk' => ?_⟩
    dsimp only at hk'
    split at hk'
    · cases hk'
      exact ⟨show McReqState.almostDone.Late by decide, rfl⟩
    · cases hk'
  · exact k.spacesBeforeNumCase_late c
  · split_ifs
    · exact k.goto_late (by decide)
    · exact hrun
    · trivial
  · exact k.runtoCrlfCase_late c
  · exact k.crlfCase_late c
  · unfold noreplyCase
    split_ifs
    · exact (afterNoreplyCase_late { k with noreply := true } c).cleared
    · trivial
    · exact k.goto_late (by decide)
  · exact k.afterNoreplyCase_late c
  · split_ifs <;> trivial

/-- The states behind the line. -/
def McReqState.Ended (s : McReqState) : Prop := s ∈ [McReqState.runtoVal, .val, .almostDone]

instance (s : McReqState) : Decidable s.Ended := inferInstanceAs (Decidable (_ ∈ _))

/-- The line ends with a carriage return. -/
def Act.Ends (c : Byte) (x : Act McReqCore) : Prop := x.Into fun k => k.state.Ended → c = CR

namespace McReqCore

variable (k : McReqCore) (c : Byte)

theorem goto_ends {s : McReqState} (hs : ¬s.Ended) : (k.goto s).Ends c := fun h => absurd h hs

theorem opens_ends {s : McReqState} (hs : ¬s.Ended) : (k.opens s).Ends c := fun h => absurd h hs

theorem closes_ends {s : McReqState} (hs : ¬s.Ended) : (k.closes s).Ends c := fun h => absurd h hs

theorem cleared_ends {x : Act McReqCore} (h : x.Ends c) (key : Bool) : (x.cleared key).Ends c :=
  Act.into_cleared.mpr h

theorem crlfCase_ends : (k.crlfCase c).Ends c := by
  unfold crlfCase
  split_ifs with h₁ h₂
  · exact k.goto_ends c (by decide)
  · exact fun _ => h₂
  · trivial

theorem runtoCrlfCase_ends : (k.runtoCrlfCase c).Ends c := by
  unfold runtoCrlfCase
  split_ifs with h₁ h₂ h₃ h₄
  · exact k.goto_ends c (by decide)
  · exact k.opens_ends c (by decide)
  · trivial
  · exact fun _ => h₄
  · exact fun _ => h₄
  · trivial

theorem afterNoreplyCase_ends : (k.afterNoreplyCase c).Ends c := by
  unfold afterNoreplyCase
  split_ifs with h₁ h₂
  · exact k.goto_ends c (by decide)
  · exact fun _ => h₂
  · exact fun _ => h₂
  · trivial

theorem digitsCase_ends {s s' : McReqState} (hs : ¬s.Ended) (hs' : ¬s'.Ended) :
    (k.digitsCase c s s').Ends c := by
  unfold digitsCase
  split_ifs
  · exact k.opens_ends c hs'
  · trivial
  · exact k.goto_ends c hs

theorem spacesBeforeNumCase_ends : (k.spacesBeforeNumCase c).Ends c := by
  unfold spacesBeforeNumCase
  split_ifs
  · exact k.opens_ends c (by decide)
  · trivial
  · exact k.goto_ends c (by decide)

theorem spacesBeforeKeysCase_ends {x : Act McReqCore} (hx : x.Ends c) :
    (k.spacesBeforeKeysCase c x).Ends c := by
  unfold spacesBeforeKeysCase
  split_ifs with h₁ h₂
  · exact k.goto_ends c (by decide)
  · exact fun _ => h₂
  · exact cleared_ends c hx _

theorem afterKey_not_ended : ¬k.afterKey.Ended := by
  unfold McReqCore.afterKey
  split_ifs <;> decide

theorem keyCase_ends (tok : Option (List Byte)) : (k.keyCase c tok).Ends c := by
  unfold keyCase
  dsimp only
  split_ifs
  · trivial
  · trivial
  · trivial
  · split
    · exact cleared_ends c (spacesBeforeNumCase_ends _ c) _
    · exact cleared_ends c (spacesBeforeKeysCase_ends _ c (show Act.error.Ends c from trivial)) _
    · exact cleared_ends c (runtoCrlfCase_ends _ c) _
  · exact fun h => absurd h (afterKey_not_ended _)
  · exact k.opens_ends c (by decide)
  · exact k.goto_ends c (by decide)

theorem reqTypeCase_ends (tok : Option (List Byte)) : (k.reqTypeCase c tok).Ends c := by
  unfold reqTypeCase
  by_cases hend : c = SP ∨ c = CR
  · rw [if_pos hend]
    cases tok with
    | none => trivial
    | some =>
      dsimp only
      split_ifs
      · exact cleared_ends c (crlfCase_ends _ c) _
      · trivial
      · trivial
      · exact closes_ends _ c (by decide)
  · rw [if_neg hend]
    split_ifs
    · exact k.goto_ends c (by decide)
    · trivial

theorem noreplyCase_ends (tok : Option (List Byte)) : (k.noreplyCase c tok).Ends c := by
  unfold noreplyCase
  split_ifs
  · exact cleared_ends c (afterNoreplyCase_ends _ c) _
  · trivial
  · exact k.goto_ends c (by decide)

end McReqCore

open McReqCore in
/-- **A line ends with a carriage return.** -/
theorem memcacheReqAct_ends {k : McReqCore} (hs : ¬k.state.Ended) (tok : Option (List Byte))
    (c : Byte) :
    (memcacheReqAct k tok c).Ends c := by
  have hrun : ((k.runtoCrlfCase c).cleared false).Ends c :=
    cleared_ends c (k.runtoCrlfCase_ends c) _
  unfold memcacheReqAct
  split
  · split_ifs
    · exact k.goto_ends c (by decide)
    · exact k.opens_ends c (by decide)
    · trivial
  · exact k.reqTypeCase_ends c tok
  · split_ifs
    · exact cleared_ends c (k.keyCase_ends c none) _
    · exact k.goto_ends c (by decide)
  · exact k.keyCase_ends c tok
  · exact k.spacesBeforeKeysCase_ends c (k.keyCase_ends c none)
  · exact k.digitsCase_ends c (by decide) (by decide)
  · split_ifs
    · exact k.goto_ends c (by decide)
    · exact k.closes_ends c (by decide)
    · trivial
  · exact k.digitsCase_ends c (by decide) (by decide)
  · split_ifs
    · exact k.goto_ends c (by decide)
    · exact k.closes_ends c (by decide)
    · trivial
  · split_ifs
    · exact goto_ends _ c (by decide)
    · trivial
    · exact k.goto_ends c (by decide)
  · split_ifs
    · exact goto_ends _ c (by decide)
    · trivial
    · exact cleared_ends c (k.digitsCase_ends c (by decide) (by decide)) _
    · exact hrun
    · trivial
  · exact k.digitsCase_ends c (by decide) (by decide)
  · split_ifs
    · exact k.goto_ends c (by decide)
    · exact hrun
    · trivial
  · next h => exact absurd (by rw [h]; decide) hs
  · next h => exact absurd (by rw [h]; decide) hs
  · exact k.spacesBeforeNumCase_ends c
  · split_ifs
    · exact k.goto_ends c (by decide)
    · exact hrun
    · trivial
  · exact k.runtoCrlfCase_ends c
  · exact k.crlfCase_ends c
  · exact k.noreplyCase_ends c tok
  · exact k.afterNoreplyCase_ends c
  · next h => exact absurd (by rw [h]; decide) hs

/-- **What is known in every state** of the bytes read, the type, the open token and the keys. -/
def KeyShape (u : List Byte) (t : MsgType) (tok : List Byte) (keys : List (List Byte)) :
    McReqState → Prop
  | .start => splitLine u = ([], []) ∧ keys = [] ∧ CR ∉ u
  | .reqType => (splitLine u).1 = [] ∧ (splitLine u).2 ≠ [] ∧ keys = [] ∧ CR ∉ u
  | .spacesBeforeKey => (∃ name, splitLine u = ([name], [])) ∧ keys = [] ∧ t ≠ .reqMcQuit ∧ CR ∉ u
  | .key => (∃ name, splitLine u = (name :: keys, tok)) ∧ tok ≠ [] ∧
      (memcacheRetrieval t = true ∨ keys = []) ∧ t ≠ .reqMcQuit ∧ CR ∉ u
  | .spacesBeforeKeys => (∃ name, splitLine u = (name :: keys, [])) ∧ memcacheRetrieval t = true ∧
      t ≠ .reqMcQuit ∧ CR ∉ u
  | _ => (CR ∉ u ∧ (t = .reqMcQuit ∧ keys = [] ∨ t ≠ .reqMcQuit ∧ memcacheRetrieval t = false ∧
        ∃ name key more, (splitLine u).1 = name :: key :: more ∧ keys = [key])) ∨
      ∃ line rest, u = line ++ CR :: rest ∧ CR ∉ line ∧ keys = keyFields t line

/-- The keys are not too long. -/
def ShortKeys (keys : List (List Byte)) : Prop :=
  ∀ key ∈ keys, 1 ≤ key.length ∧ key.length ≤ memcacheMaxKeyLength

/-- **What is known of the bytes read and the keys found.** -/
structure Keyed (u : List Byte) (a : TokScan McReqCore) : Prop where
  held : McHeld a
  ended : a.core.state.Ended → CR ∈ u
  short : ShortKeys a.keys
  shape : KeyShape u a.core.type a.tok a.keys a.core.state

section Steps

variable {u : List Byte} {t : MsgType} {tok tok' : List Byte} {keys : List (List Byte)} {c : Byte}

/-- Behind the keys the state does not matter. -/
theorem keyShape_late {s s' : McReqState} (hs : s.Late) (hs' : s'.Late)
    (h : KeyShape u t tok keys s) :
    KeyShape u t tok' keys s' := by
  cases s <;> first
    | exact absurd hs (by decide)
    | (cases s' <;> first | exact absurd hs' (by decide) | exact h)

/-- **Behind the keys** a byte more does not change them. -/
theorem KeyShape.late {s : McReqState} (hs : s.Late) (h : KeyShape u t tok keys s) :
    KeyShape (u ++ [c]) t tok keys s := by
  suffices h' : KeyShape (u ++ [c]) t tok keys .almostDone from keyShape_late (by decide) hs h'
  have h : KeyShape u t tok keys .almostDone := keyShape_late hs (by decide) h
  rcases h with ⟨hcr, hkeys⟩ | ⟨line, rest, rfl, hline, hkeys⟩
  · by_cases hc : c = CR
    · refine .inr ⟨u, [], by rw [hc], hcr, ?_⟩
      rcases hkeys with ⟨rfl, rfl⟩ | ⟨hquit, hretr, name, key, more, hsplit, rfl⟩
      · rfl
      · rw [keyFields, if_neg hquit, hretr, lineFields, hsplit]
        rfl
    · refine .inl ⟨by simp [hcr, Ne.symm hc], ?_⟩
      rcases hkeys with hquit | ⟨hquit, hretr, name, key, more, hsplit, hkeys⟩
      · exact .inl hquit
      · obtain ⟨more', hmore⟩ := splitStep_fst (c := c) (splitLine u)
        refine .inr ⟨hquit, hretr, name, key, more ++ more', ?_, hkeys⟩
        rw [splitLine_concat, hmore, hsplit]
        rfl
  · exact .inr ⟨line, rest ++ [c], by simp, hline, hkeys⟩

/-- What an action makes of the keys. -/
def Act.Keys (u : List Byte) (c : Byte) (tok : List Byte) (keys : List (List Byte)) :
    Act McReqCore → Prop
  | .next k m key _ => ShortKeys (if key then keys ++ [tok] else keys) ∧
      KeyShape (u ++ [c]) k.type (m.bytes tok c) (if key then keys ++ [tok] else keys) k.state
  | .skip _ _ _ => False
  | _ => True

theorem not_mem_concat (h : CR ∉ u) (hc : c ≠ CR) : CR ∉ u ++ [c] := by
  simp [h, Ne.symm hc]

theorem isLower_ne {c : Byte} (h : isLower c = true) : c ≠ SP ∧ c ≠ CR := by
  constructor <;> (rintro rfl; exact absurd h (by decide))

/-- A command is not more than one. -/
theorem not_retrieval {t : MsgType} (h : memcacheRetrieval t = true) : memcacheStorage t = false ∧
    memcacheArithmetic t = false ∧ memcacheTouch t = false ∧ memcacheDelete t = false := by
  cases t <;> first | exact ⟨rfl, rfl, rfl, rfl⟩ | cases h

open McReqCore

/-- A key begins behind a blank. -/
theorem keyCase_none_keys {k : McReqCore} (hshort : ShortKeys keys) {name : List Byte}
    (hsplit : splitLine u = (name :: keys, []))
    (hkeys : memcacheRetrieval k.type = true ∨ keys = [])
    (hquit : k.type ≠ .reqMcQuit) (hcr : CR ∉ u) (hc : c ≠ SP) :
    ((k.keyCase c none).cleared false).Keys u c tok keys := by
  unfold keyCase
  by_cases hret : c = CR
  · rw [if_pos (.inr hret)]
    trivial
  · rw [if_neg (by simp [hc, hret]), if_pos rfl]
    refine ⟨hshort, ⟨name, ?_⟩, by simp [TokenMove.bytes], hkeys, hquit, not_mem_concat hcr hret⟩
    rw [splitLine_concat, hsplit, splitStep_more hc]
    rfl

/-- The state behind a key. -/
theorem afterKey_retrieval {k : McReqCore} (h : memcacheRetrieval k.type = true) :
    k.afterKey = .spacesBeforeKeys := by
  obtain ⟨hst, har, hto, hde⟩ := not_retrieval h
  simp [McReqCore.afterKey, hst, har, hto, hde, h]

theorem afterKey_late {k : McReqCore} (h : memcacheRetrieval k.type = false) : k.afterKey.Late := by
  unfold McReqCore.afterKey
  rw [h]
  split_ifs with h₁ h₂ h₃ h₄
  · decide
  · decide
  · decide
  · cases h₄
  · decide

/-- **The end of a key**, and of the line. -/
theorem keyCase_return_keys {k : McReqCore} (hshort : ShortKeys (keys ++ [tok]))
    (hfields : keyFields k.type u = keys ++ [tok]) (hcr : CR ∉ u)
    (hst : (memcacheStorage k.type || memcacheArithmetic k.type) = false) :
    (match k.afterKey with
      | .spacesBeforeNum => (k.spacesBeforeNumCase CR).cleared true
      | .spacesBeforeKeys => (k.spacesBeforeKeysCase CR .error).cleared true
      | _ => (k.runtoCrlfCase CR).cleared true : Act McReqCore).Keys u CR tok keys := by
  have hdone : KeyShape (u ++ [CR]) k.type [] (keys ++ [tok]) .almostDone :=
    .inr ⟨u, [], rfl, hcr, hfields.symm⟩
  rw [Bool.or_eq_false_iff] at hst
  split
  · trivial
  · exact ⟨hshort, hdone⟩
  · have hrun : k.runtoCrlfCase CR = k.goto .almostDone := by
      rw [runtoCrlfCase, if_neg (by decide), if_neg (by decide), if_pos rfl, hst.1]
      rfl
    rw [hrun]
    exact ⟨hshort, hdone⟩

/-- The key fields of a line that ends inside of a key. -/
theorem keyFields_open {name : List Byte} (hsplit : splitLine u = (name :: keys, tok))
    (hnil : tok ≠ [])
    (hkeys : memcacheRetrieval t = true ∨ keys = []) (hquit : t ≠ .reqMcQuit) :
    keyFields t u = keys ++ [tok] := by
  rw [keyFields, if_neg hquit, lineFields, hsplit, if_neg hnil]
  rcases hkeys with hretr | rfl
  · rw [if_pos hretr]
    rfl
  · split <;> rfl

/-- **A byte of a key, or behind it.** -/
theorem keyCase_keys {k : McReqCore} (hshort : ShortKeys keys) {name : List Byte}
    (hsplit : splitLine u = (name :: keys, tok)) (hnil : tok ≠ [])
    (hkeys : memcacheRetrieval k.type = true ∨ keys = []) (hquit : k.type ≠ .reqMcQuit)
    (hcr : CR ∉ u) :
    (k.keyCase c (some tok)).Keys u c tok keys := by
  have hshort' (h : ¬memcacheMaxKeyLength < tok.length) : ShortKeys (keys ++ [tok]) := by
    intro key hkey
    rcases List.mem_append.mp hkey with hkey | hkey
    · exact hshort key hkey
    · cases List.mem_singleton.mp hkey
      exact ⟨List.length_pos_of_ne_nil hnil, not_lt.mp h⟩
  have hfields := keyFields_open hsplit hnil hkeys hquit
  unfold keyCase
  dsimp only [Option.getD_some]
  by_cases hend : c = SP ∨ c = CR
  · rw [if_pos hend]
    split_ifs with hlong hzero hret hst
    · trivial
    · trivial
    · trivial
    · subst hret
      exact keyCase_return_keys (k := { k with narg := wrap32 (k.narg + 1) })
        (hshort' hlong) hfields hcr
        (Bool.eq_false_iff.mpr hst)
    · cases hend.resolve_right hret
      have hnext : splitLine (u ++ [SP]) = (name :: (keys ++ [tok]), []) := by
        rw [splitLine_concat, hsplit, splitStep_end hnil, List.cons_append]
      refine ⟨hshort' hlong, ?_⟩
      cases hretr : memcacheRetrieval k.type with
      | true =>
        dsimp only
        rw [afterKey_retrieval (k := { k with narg := wrap32 (k.narg + 1) }) hretr]
        exact ⟨⟨name, hnext⟩, hretr, hquit, not_mem_concat hcr (by decide)⟩
      | false =>
        have hempty : keys = [] := hkeys.resolve_left (by simp [hretr])
        subst hempty
        refine keyShape_late (s := .almostDone) (by decide)
          (afterKey_late (k := { k with narg := wrap32 (k.narg + 1) }) hretr)
          (show KeyShape _ _ [] _ _ from .inl ⟨?_, .inr ?_⟩)
        · exact not_mem_concat hcr (by decide)
        · exact ⟨hquit, hretr, name, tok, [], by rw [hnext]; rfl, rfl⟩
  · rw [if_neg hend, if_neg (by simp)]
    rw [not_or] at hend
    refine ⟨hshort, ⟨name, ?_⟩, ?_, hkeys, hquit, not_mem_concat hcr hend.2⟩
    · rw [splitLine_concat, hsplit, splitStep_more hend.1, TokenMove.bytes, if_neg hnil]
      rfl
    · rw [TokenMove.bytes, if_neg hnil]
      simp

/-- The name of the command. -/
theorem reqTypeCase_keys {k : McReqCore} (m : Option (List Byte)) (hsplit : (splitLine u).1 = [])
    (hname : (splitLine u).2 ≠ []) (hcr : CR ∉ u) : (k.reqTypeCase c m).Keys u c tok [] := by
  have hshort : ShortKeys [] := by simp [ShortKeys]
  have hpair : splitLine u = ([], (splitLine u).2) := by rw [← hsplit]
  unfold reqTypeCase
  by_cases hend : c = SP ∨ c = CR
  · rw [if_pos hend]
    cases m with
    | none => trivial
    | some =>
      dsimp only
      split_ifs with hquit hunknown hret
      · -- There is no key behind `quit`.
        unfold crlfCase
        split_ifs with hblank hret
        · subst hblank
          exact ⟨hshort, .inl ⟨not_mem_concat hcr (by decide), .inl ⟨hquit, rfl⟩⟩⟩
        · subst hret
          exact ⟨hshort, .inr ⟨u, [], rfl, hcr, by rw [hquit]; rfl⟩⟩
        · trivial
      · trivial
      · trivial
      · cases hend.resolve_right hret
        refine ⟨hshort, ⟨(splitLine u).2, ?_⟩, rfl, hquit, not_mem_concat hcr (by decide)⟩
        rw [splitLine_concat, hpair, splitStep_end hname]
        rfl
  · rw [if_neg hend]
    rw [not_or] at hend
    split_ifs
    · refine ⟨hshort, ?_, ?_, rfl, not_mem_concat hcr hend.2⟩
      · rw [splitLine_concat, hpair, splitStep_more hend.1]
      · rw [splitLine_concat, hpair, splitStep_more hend.1]
        simp
    · trivial

/-- **What a byte makes of the keys**, up to the last of them. -/
theorem memcacheReqAct_keys {a : TokScan McReqCore} (h : Keyed u a) (hs : ¬a.core.state.Late)
    (c : Byte) :
    (memcacheReqAct a.core a.opened c).Keys u c a.tok a.keys := by
  have hshape := h.shape
  unfold memcacheReqAct
  cases hstate : a.core.state with
  | start =>
    rw [hstate] at hshape
    obtain ⟨hsplit, hkeys, hcr⟩ := hshape
    dsimp only
    split_ifs with hblank hlow
    · subst hblank
      exact ⟨h.short, by rw [splitLine_concat, hsplit, splitStep_blank], hkeys,
        not_mem_concat hcr (by decide)⟩
    · obtain ⟨hsp, hret⟩ := isLower_ne hlow
      refine ⟨h.short, ?_, ?_, hkeys, not_mem_concat hcr hret⟩
      · rw [splitLine_concat, hsplit, splitStep_more hsp]
      · rw [splitLine_concat, hsplit, splitStep_more hsp]
        simp
    · trivial
  | reqType =>
    rw [hstate] at hshape
    obtain ⟨hsplit, hname, hkeys, hcr⟩ := hshape
    rw [hkeys]
    exact reqTypeCase_keys a.opened hsplit hname hcr
  | spacesBeforeKey =>
    rw [hstate] at hshape
    obtain ⟨⟨name, hsplit⟩, hkeys, hquit, hcr⟩ := hshape
    dsimp only
    split_ifs with hsp
    · exact keyCase_none_keys h.short (by rw [hkeys]; exact hsplit) (.inr hkeys) hquit hcr hsp
    · cases not_not.mp hsp
      refine ⟨h.short, ⟨name, ?_⟩, hkeys, hquit, not_mem_concat hcr (by decide)⟩
      rw [splitLine_concat, hsplit, splitStep_blank]
  | key =>
    rw [hstate] at hshape
    obtain ⟨⟨name, hsplit⟩, hnil, hkeys, hquit, hcr⟩ := hshape
    rw [TokScan.opened, if_neg hnil]
    exact keyCase_keys h.short hsplit hnil hkeys hquit hcr
  | spacesBeforeKeys =>
    rw [hstate] at hshape
    obtain ⟨⟨name, hsplit⟩, hretr, hquit, hcr⟩ := hshape
    dsimp only
    unfold spacesBeforeKeysCase
    split_ifs with hsp hret
    · subst hsp
      refine ⟨h.short, ⟨name, ?_⟩, hretr, hquit, not_mem_concat hcr (by decide)⟩
      rw [splitLine_concat, hsplit, splitStep_blank]
      rfl
    · subst hret
      refine ⟨h.short, .inr ⟨u, [], rfl, hcr, ?_⟩⟩
      rw [keyFields, if_neg hquit, if_pos hretr, lineFields, hsplit]
      simp
    · exact keyCase_none_keys h.short hsplit (.inl hretr) hquit hcr hsp
  | _ => exact absurd (by rw [hstate]; decide) hs

end Steps

/-- Behind the line there is the carriage return. -/
theorem step_ended {u : List Byte} {a a' : TokScan McReqCore} {c : Byte}
    (h : a.core.state.Ended → CR ∈ u)
    (hstep : memcacheReq.machine.step a c = .more a') (hs : a'.core.state.Ended) :
    CR ∈ u ++ [c] := by
  by_cases hended : a.core.state.Ended
  · exact List.mem_append_left _ (h hended)
  change memcacheReq.scanStep a c = _ at hstep
  unfold TokenParser.scanStep at hstep
  have hends := memcacheReqAct_ends hended a.opened c
  cases hact : memcacheReq.act a.core a.opened c with
  | next =>
    rw [hact] at hstep
    rw [show memcacheReqAct a.core a.opened c = _ from hact] at hends
    cases hstep
    rw [hends hs]
    simp
  | skip => exact absurd (by rw [memcacheReqAct_skip hact]; decide) hended
  | done =>
    rw [hact] at hstep
    cases hstep
  | error =>
    rw [hact] at hstep
    cases hstep

/-- **One byte.** -/
theorem Keyed.step {u : List Byte} {a a' : TokScan McReqCore} {c : Byte} (h : Keyed u a)
    (hstep : memcacheReq.machine.step a c = .more a') : Keyed (u ++ [c]) a' := by
  have hheld := h.held.step hstep
  have hended := step_ended h.ended hstep
  change memcacheReq.scanStep a c = _ at hstep
  unfold TokenParser.scanStep at hstep
  by_cases hs : a.core.state.Late
  · have hlate := memcacheReqAct_late hs a.opened c
    have hshape := h.shape.late (c := c) hs
    cases hact : memcacheReq.act a.core a.opened c with
    | next =>
      rw [hact] at hstep
      rw [show memcacheReqAct a.core a.opened c = _ from hact] at hlate
      obtain ⟨hk, htype, rfl⟩ := hlate
      cases hstep
      exact ⟨hheld, hended, h.short, by rw [htype]; exact keyShape_late hs hk hshape⟩
    | skip n left got =>
      rw [hact] at hstep
      rw [show memcacheReqAct a.core a.opened c = _ from hact] at hlate
      dsimp only at hstep
      split at hstep
      · cases hstep
        obtain ⟨hk, htype⟩ := hlate.1 (n - 1)
        exact ⟨hheld, hended, h.short, by rw [htype]; exact keyShape_late hs hk hshape⟩
      · cases hgot : got c with
        | none =>
          rw [hgot] at hstep
          cases hstep
        | some k =>
          rw [hgot] at hstep
          cases hstep
          obtain ⟨hk, htype⟩ := hlate.2 c k hgot
          exact ⟨hheld, hended, h.short, by rw [htype]; exact keyShape_late hs hk hshape⟩
    | done =>
      rw [hact] at hstep
      cases hstep
    | error =>
      rw [hact] at hstep
      cases hstep
  · have hkeys := memcacheReqAct_keys h hs c
    cases hact : memcacheReq.act a.core a.opened c with
    | next =>
      rw [hact] at hstep
      rw [show memcacheReqAct a.core a.opened c = _ from hact] at hkeys
      cases hstep
      exact ⟨hheld, hended, hkeys.1, hkeys.2⟩
    | skip =>
      rw [show memcacheReqAct a.core a.opened c = _ from hact] at hkeys
      exact hkeys.elim
    | done =>
      rw [hact] at hstep
      cases hstep
    | error =>
      rw [hact] at hstep
      cases hstep

/-! ### Buffers -/

section Buffers

variable {u : List Byte} {a : TokScan McReqCore}

/-- Except in a key the open token does not matter. -/
theorem Keyed.forget {a' : TokScan McReqCore} (h : Keyed u a) (hs : a.core.state ≠ .key)
    (hcore : a'.core = a.core)
    (hkeys : a'.keys = a.keys) (hheld : McHeld a') : Keyed u a' := by
  refine ⟨hheld, by rw [hcore]; exact h.ended, by rw [hkeys]; exact h.short, ?_⟩
  rw [hcore, hkeys]
  have hshape := h.shape
  revert hshape hs
  cases a.core.state with
  | key => exact fun hs => absurd rfl hs
  | _ => exact fun _ h => h

/-- **A token that is read again.** -/
theorem Keyed.reread (h : Keyed u a) (htok : a.tok ≠ []) :
    memcacheReq.machine.run (memcacheReq.machine.rewind a) a.tok = .fail ∨
      ∃ a', memcacheReq.machine.run (memcacheReq.machine.rewind a) a.tok = .more a' ∧
        Keyed u a' := by
  rcases h.held.reread htok with hfail | ⟨a', hrun, hheld, hcore, hkeys, hkey⟩
  · exact .inl hfail
  · refine .inr ⟨a', hrun, ?_⟩
    by_cases hs : a.core.state = .key
    · rw [hkey hs]
      exact h
    · exact h.forget hs hcore hkeys hheld

/-- **What is known behind a key field as long as a buffer**: the type. -/
structure Overlong (size : ℕ) (u : List Byte) (a : TokScan McReqCore) : Prop where
  held : McHeld a
  ended : a.core.state.Ended → CR ∈ u
  named : a.core.state ≠ .start ∧ a.core.state ≠ .reqType
  long : LongKey size a.core.type u

theorem Overlong.step {size : ℕ} {a' : TokScan McReqCore} {c : Byte} (h : Overlong size u a)
    (hstep : memcacheReq.machine.step a c = .more a') : Overlong size (u ++ [c]) a' := by
  have hheld := h.held.step hstep
  have hended := step_ended h.ended hstep
  have hnamed := memcacheReqAct_named a.opened c h.named
  suffices hcore : McReqCore.Named a.core.type a'.core from
    ⟨hheld, hended, hcore.2, hcore.1 ▸ h.long.concat⟩
  change memcacheReq.scanStep a c = _ at hstep
  unfold TokenParser.scanStep at hstep
  cases hact : memcacheReq.act a.core a.opened c with
  | next =>
    rw [hact] at hstep
    rw [show memcacheReqAct a.core a.opened c = _ from hact] at hnamed
    cases hstep
    exact hnamed
  | skip =>
    have hval := memcacheReqAct_skip hact
    cases (memcacheReqAct_val hval a.opened c).symm.trans hact
    rw [hact] at hstep
    dsimp only at hstep
    split_ifs at hstep
    · cases hstep
      exact ⟨rfl, h.named⟩
    · cases hstep
      exact ⟨rfl, nofun, nofun⟩
  | done =>
    rw [hact] at hstep
    cases hstep
  | error =>
    rw [hact] at hstep
    cases hstep

/-- **A token that fills a buffer** is forgotten: only for a key this does harm. -/
theorem Keyed.stuck {size : ℕ} (h : Keyed u a) (hlen : size ≤ a.tok.length) :
    Keyed u (memcacheReq.machine.rewind a) ∨ Overlong size u (memcacheReq.machine.rewind a) := by
  by_cases hs : a.core.state = .key
  · right
    have hshape := h.shape
    rw [hs] at hshape
    obtain ⟨⟨name, hsplit⟩, hnil, hkeys, hquit, hcr⟩ := hshape
    have hstate : (memcacheReq.machine.rewind a).core.state = .key := hs
    refine ⟨mcHeld_nil rfl,
      h.ended, by rw [hstate]; exact ⟨nofun, nofun⟩, u, [], by simp, hcr, .inl rfl,
      a.tok, ?_, hlen⟩
    change a.tok ∈ keyFields a.core.type u
    rw [keyFields_open hsplit hnil hkeys hquit]
    simp
  · exact .inl (h.forget hs rfl rfl (mcHeld_nil rfl))

end Buffers

/-! ### Requests -/

/-- **The keys are the fields of the command line** that are keys, and not too long; or one of these
is as long as a buffer. -/
def KeyForm (size : ℕ) (bytes : List Byte) (o : TokScan McReqCore) : Prop :=
  ∃ line rest, bytes = line ++ CR :: rest ∧ CR ∉ line ∧
    (o.keys = keyFields o.core.type line ∧ ShortKeys o.keys ∨
      ∃ key ∈ keyFields o.core.type line, size ≤ key.length)

/-- **What `memcache_parse_req` keeps of the keys.** -/
theorem memcacheReq_keeps_keys (size : ℕ) :
    Keeps size memcacheReq.machine (fun u _ a => Keyed u a ∨ Overlong size u a) (KeyForm size)
      fun _ => False where
  init := .inl ⟨mcHeld_nil rfl, fun h => absurd h (by decide),
    by simp [ShortKeys, memcacheReq, TokenParser.machine], rfl, rfl, by simp⟩
  more h _ hstep := h.imp (·.step hstep) (·.step hstep)
  done {u _ a c o} h _ hstep := by
    obtain ⟨hact, rfl⟩ := TokenParser.machine_step_eq_done hstep
    obtain ⟨hs, rfl⟩ := memcacheReqAct_done hact
    rcases h with h | h
    · have hshape := h.shape
      rw [hs] at hshape
      rcases hshape with ⟨hcr, -⟩ | ⟨line, rest, rfl, hline, hkeys⟩
      · exact absurd (h.ended (by rw [hs]; decide)) hcr
      · exact ⟨line, rest ++ [LF], by simp, hline, .inl ⟨hkeys, h.short⟩⟩
    · have hcr := h.ended (by rw [hs]; decide)
      obtain ⟨line, rest, rfl, hline, hrest, hlong⟩ := h.long
      cases rest with
      | nil => exact absurd hcr (by simpa using hline)
      | cons d rest =>
        cases hrest.resolve_left nofun
        exact ⟨line, rest ++ [LF], by simp, hline, .inr hlong⟩
  closed _ := rfl
  fresh h _ := h
  moved {v a} h htok _ := by
    right
    rcases h with h | h
    · exact (h.reread htok).imp_right fun ⟨a', hrun, hkeyed⟩ => ⟨a', hrun, .inl hkeyed⟩
    · rcases h.held.reread htok with hfail | ⟨a', hrun, hheld, hcore, -⟩
      · exact .inl hfail
      · exact .inr ⟨a', hrun, .inr ⟨hheld, hcore ▸ h.ended, hcore ▸ h.named, hcore ▸ h.long⟩⟩
  stuck h _ hlen := by
    left
    rcases h with h | h
    · exact h.stuck hlen
    · exact .inr ⟨mcHeld_nil rfl, h.ended, h.named, h.long⟩
  lost _ h := h

/-- A key field has a blank before it, and behind it a blank or the end of the line. -/
theorem mem_keyFields_places {t : MsgType} {line key : List Byte} (h : key ∈ keyFields t line)
    (rest : List Byte) :
    ∃ pre d post, line ++ CR :: rest = pre ++ SP :: key ++ d :: post ∧ (d = SP ∨ d = CR) := by
  have hfield : key ∈ (lineFields line).drop 1 := by
    unfold keyFields at h
    split_ifs at h
    · cases h
    · exact h
    · exact List.mem_of_mem_take h
  obtain ⟨pre, d, post, heq, hd⟩ := mem_lineFields_tail hfield CR
  refine ⟨pre, d, post ++ rest, ?_, hd⟩
  rw [← List.singleton_append, ← List.append_assoc, heq]
  simp

/-- **The keys of an accepted request are complete fields of it, exactly if no key field is as long
as a buffer.**  Whatever arrives in whatever chunks: the keys are then the fields of the line behind
the name, all of them for a retrieval and the first for the others; they have from 1 to 250 bytes, a
blank before them, and a blank or the end of the line behind them. -/
theorem memcacheReq_keys {size : ℕ} (hsize : 464 ≤ size) (chunks : List (List Byte))
    {m : RecvMsg (TokRegs McReqCore)} (hm : m ∈ (recvRun memcacheParseReq size chunks).received) :
    ∃ line rest, m.bytes = line ++ CR :: rest ∧ CR ∉ line ∧
      ((∀ key ∈ keyFields m.regs.core.type line, key.length < size) ↔
        m.regs.keys.map (keyBytes m.mhdr) = (keyFields m.regs.core.type line).map some ∧
        ∀ key ∈ keyFields m.regs.core.type line, 1 ≤ key.length ∧ key.length ≤ 250 ∧
          ∃ pre d post, m.bytes = pre ++ SP :: key ++ d :: post ∧ (d = SP ∨ d = CR)) := by
  obtain ⟨o, hout, line, rest, hbytes, hline, hform⟩ :=
    ((memcacheReq_keeps_keys size).recvRun_reported
    (memcacheReq.sim memcacheReq_laws size) TokRel.jump (by omega) chunks m hm).resolve_right id
  have hview : mcReqView m.mhdr m.regs = mcOutView m.bytes o := mcReqView_eq rfl hout
  have htype : m.regs.core.type = o.core.type := congrArg McReqView.type hview
  refine ⟨line, rest, hbytes, hline, fun hfit => ?_, ?_⟩
  · rw [htype] at hfit ⊢
    obtain ⟨hkeys, hshort⟩ := hform.resolve_right (by
      rintro ⟨key, hkey, hlong⟩
      exact absurd (hfit key hkey) (not_lt.mpr hlong))
    rw [← hkeys]
    refine ⟨congrArg McReqView.keys hview, ?_⟩
    intro key hkey
    obtain ⟨hone, hmax⟩ := hshort key hkey
    refine ⟨hone, hmax, ?_⟩
    rw [hbytes]
    exact mem_keyFields_places (hkeys ▸ hkey) rest
  · rintro ⟨-, hkeys⟩ key hkey
    have := (hkeys key hkey).2.1
    omega

/-- A retrieval of one key. -/
def getOne : List Byte := str "get k" ++ [CR, LF]

/-- The key of a retrieval of one key. -/
theorem memcacheReq_keys_getOne :
    ∃ m ∈ (recvRun memcacheParseReq 464 [getOne]).received, ∃ line rest,
      m.bytes = line ++ CR :: rest ∧
      m.regs.keys.map (keyBytes m.mhdr) = (keyFields m.regs.core.type line).map some := by
  obtain ⟨m, hm, hbytes⟩ : ∃ m ∈ (recvRun memcacheParseReq 464 [getOne]).received,
    m.bytes = getOne :=
    ⟨_, List.mem_singleton.mpr rfl, rfl⟩
  obtain ⟨line, rest, hline, -, hiff⟩ := memcacheReq_keys (by decide) [getOne] hm
  refine ⟨m, hm, line, rest, hline, (hiff.mp fun key hkey => ?_).1⟩
  obtain ⟨pre, d, post, heq, -⟩ := mem_keyFields_places hkey rest
  have hlength := congrArg List.length (hline.symm.trans hbytes)
  rw [heq, show getOne.length = 7 from rfl] at hlength
  simp only [List.length_append, List.length_cons] at hlength
  omega

/-- A retrieval of one key of 466 bytes. -/
def longKey : List Byte := str "get " ++ List.replicate 466 97 ++ [CR, LF]

set_option maxRecDepth 10000 in
/-- **Two bytes of a key of 466**: with buffers of 464 bytes the request is accepted, with the last
two bytes of the field for its key. -/
theorem cut_longKey :
    ((recvRun memcacheParseReq 464 [longKey]).received.map fun m =>
        (m.bytes, m.regs.keys.map (keyBytes m.mhdr))) = [(longKey, [some [97, 97]])] ∧
      keyFields .reqMcGet (longKey.take 470) = [List.replicate 466 97] := by
  constructor <;> decide +kernel

end CacheProxy
