/-
**The configuration file.**

The file is read twice as a stream of YAML events.  `conf_validate_structure` checks its shape with
a depth, a count for each depth and a flag for sequences; the parser then works with a stack of
scalars, a depth and a flag of its own, and assumes the shape.  What the check lets pass is a list
of pools, each with a name and entries that are a key with a value, or a key with a sequence of
values; and on such a list the parser is never where it should not be.

Main definitions:

* `YEvent`, `WellNested` — events, and streams that are one document;
* `confValidateStructure` — the check;
* `confParse` — the parser; `broken` is an assertion that fails, `NOT_REACHED` or an empty stack;
* `PoolConf`, `confEvents`, `confCalls` — a configuration, its events, and the calls it asks for.

Main results:

* `confValidateStructure_sound` — what is accepted are the events of a configuration;
* `confParse_events` — the parser on the events of a configuration;
* `parser_safe` — **the check guarantees what the parser assumes**.
-/

import CacheProxy.Decimal

namespace CacheProxy

/-! ### Events -/

/-- `yaml_event_type_t`, without aliases. -/
inductive YEvent where
  | streamStart
  | streamEnd
  | documentStart
  | documentEnd
  | scalar (value : List Byte)
  | sequenceStart
  | sequenceEnd
  | mappingStart
  | mappingEnd
  deriving DecidableEq, Repr

/-- What comes next in an open collection: a key of a mapping, its value, or an item of a
sequence. -/
inductive NestFrame where
  | key
  | value
  | item
  deriving DecidableEq, Repr

/-- What comes after a node. -/
def NestFrame.next : NestFrame → NestFrame
  | key => value
  | value => key
  | item => item

/-- Where a stream is; `within` has the open collections, the innermost first. -/
inductive Nest where
  | stream
  | document
  | root
  | within (frame : NestFrame) (outer : List NestFrame)
  | documentEnd
  | streamEnd
  | finished
  deriving DecidableEq, Repr

/-- A collection is closed. -/
def Nest.close : List NestFrame → Nest
  | [] => documentEnd
  | f :: fs => within f fs

/-- An event of a well nested stream. -/
def Nest.step : Nest → YEvent → Option Nest
  | stream, .streamStart => some document
  | document, .documentStart => some root
  | root, .scalar _ => some documentEnd
  | root, .sequenceStart => some (within .item [])
  | root, .mappingStart => some (within .key [])
  | within f fs, .scalar _ => some (within f.next fs)
  | within f fs, .sequenceStart => some (within .item (f.next :: fs))
  | within f fs, .mappingStart => some (within .key (f.next :: fs))
  | within .item fs, .sequenceEnd => some (close fs)
  | within .key fs, .mappingEnd => some (close fs)
  | documentEnd, .documentEnd => some streamEnd
  | streamEnd, .streamEnd => some finished
  | _, _ => none

/-- **One document**, with collections that are closed as they were opened. -/
def WellNested (es : List YEvent) : Prop := es.foldlM Nest.step .stream = some .finished

instance (es : List YEvent) : Decidable (WellNested es) := inferInstanceAs (Decidable (_ = _))

/-! ### The check -/

/-- `CONF_ROOT_DEPTH` -/
def confRootDepth : ℕ := 1

/-- `CONF_MAX_DEPTH` -/
def confMaxDepth : ℕ := confRootDepth + 1

/-- The variables of `conf_validate_structure`. -/
structure VState where
  depth : ℕ := 0
  count : ℕ → ℕ := fun _ => 0
  seq : Bool := false

/-- How an iteration ends. -/
inductive VFlow where
  | next (s : VState)
  | done
  | error
  | broken

/-- `count[d] = n` -/
def VState.setCount (s : VState) (d n : ℕ) : VState :=
  { s with count := Function.update s.count d n }

/-- **The switch of `conf_validate_structure`.** -/
def validateStep (s : VState) : YEvent → VFlow
  | .streamStart | .documentStart | .documentEnd => .next s
  | .streamEnd => .done
  | .mappingStart =>
      if s.depth = confRootDepth ∧ s.count s.depth ≠ 1 then .error
      else if confMaxDepth ≤ s.depth then .error
      else .next { s with depth := s.depth + 1 }
  | .mappingEnd =>
      if s.depth = confMaxDepth ∧ s.seq = false then .error
      else if s.depth = 0 then .broken
      else
        let s := if s.depth = confMaxDepth then { s with seq := false } else s
        .next ({ s with depth := s.depth - 1 }.setCount (s.depth - 1) 0)
  | .sequenceStart =>
      if s.seq then .error
      else if s.depth ≠ confMaxDepth then .error
      else if s.count s.depth ≠ 1 then .error
      else .next { s with seq := true }
  | .sequenceEnd => if s.depth ≠ confMaxDepth then .broken else .next (s.setCount s.depth 0)
  | .scalar _ =>
      if s.depth = 0 then .error
      else if s.depth = confRootDepth ∧ s.count s.depth ≠ 0 then .error
      else
        let s := if s.depth = confMaxDepth ∧ s.count s.depth = 2 then s.setCount s.depth 0 else s
        .next (s.setCount s.depth (s.count s.depth + 1))

/-- The loop; `none` if the stream ends too early or the check itself goes wrong. -/
def validateLoop (s : VState) : List YEvent → Option Bool
  | [] => none
  | e :: es =>
      match validateStep s e with
      | .next s' => validateLoop s' es
      | .done => some true
      | .error => some false
      | .broken => none

/-- **`conf_validate_structure`** -/
def confValidateStructure (es : List YEvent) : Option Bool := validateLoop {} es

/-! ### The parser -/

/-- A call of `conf_handler`: with the name of a pool, or with a key and a value; `data` is the
number of the pool it points at. -/
inductive ConfCall where
  | pool (data : ℕ) (name : List Byte)
  | directive (data : ℕ) (key value : List Byte)
  deriving DecidableEq, Repr

/-- `struct conf`, as far as the parser works on it: the stack of scalars with the top first, the
number of pools, and the calls that were made. -/
structure Conf where
  depth : ℕ := 0
  seq : Bool := false
  arg : List (List Byte) := []
  npool : ℕ := 0
  calls : List ConfCall := []
  deriving DecidableEq, Repr

/-- What the parser does not decide: whether the last of the calls succeeds, and whether there is
memory for a scalar or a pool. -/
structure ConfEnv where
  handles : List ConfCall → Bool
  alloc : Conf → Bool

/-- How parsing ends. -/
inductive ConfResult where
  | ok (cf : Conf) (rest : List YEvent)
  | error (cf : Conf)
  | broken
  deriving DecidableEq, Repr

/-- `conf_handler`, with the state after the call and whether it succeeds. -/
def confHandler (env : ConfEnv) (cf : Conf) (data : ℕ) : Option (Conf × Bool) :=
  match cf.arg with
  | [] => none
  | [value] =>
      let calls := cf.calls ++ [.pool data value]
      some ({ cf with calls := calls }, env.handles calls)
  | value :: key :: _ =>
      let calls := cf.calls ++ [.directive data key value]
      some ({ cf with calls := calls }, env.handles calls)

/-- `conf_pop_scalar` -/
def confPopScalar (cf : Conf) : Option Conf :=
  match cf.arg with
  | [] => none
  | _ :: arg => some { cf with arg := arg }

/-- A leaf is handled, and the scalars that belong to it are popped. -/
def confLeaf (env : ConfEnv) (cf : Conf) (data : Option ℕ) : Option (Conf × Bool) :=
  match data with
  | none => none
  | some data =>
      match confHandler env cf data with
      | none => none
      | some (cf, ok) =>
          match confPopScalar cf with
          | none => none
          | some cf => if cf.seq then some (cf, ok) else (confPopScalar cf).map fun cf => (cf, ok)

/-- **`conf_parse_core`** -/
def confParseCore (env : ConfEnv) (cf : Conf) (data : Option ℕ) : List YEvent → ConfResult
  | [] => .error cf
  | .mappingEnd :: es =>
      if cf.depth = 0 then .broken
      else
        let cf := { cf with depth := cf.depth - 1 }
        if cf.depth = 1 then
          match confPopScalar cf with
          | none => .broken
          | some cf => confParseCore env cf data es
        else if cf.depth = 0 then .ok cf es
        else confParseCore env cf data es
  | .mappingStart :: es => confParseCore env { cf with depth := cf.depth + 1 } data es
  | .sequenceStart :: es => confParseCore env { cf with seq := true } data es
  | .sequenceEnd :: es =>
      match confPopScalar cf with
      | none => .broken
      | some cf => confParseCore env { cf with seq := false } data es
  | .scalar value :: es =>
      if value.length = 0 ∨ env.alloc cf = false then .error cf
      else
        let cf := { cf with arg := value :: cf.arg }
        if cf.seq = true ∨ cf.depth ≠ confRootDepth ∧ cf.arg.length = cf.depth + 1 then
          -- a leaf
          if cf.depth ≠ confMaxDepth then .broken
          else
            match confLeaf env cf data with
            | none => .broken
            | some (cf, ok) => if ok then confParseCore env cf data es else .error cf
        else if cf.depth = confRootDepth then
          -- a new pool
          if env.alloc cf = false then .error cf
          else
            let data := cf.npool
            match confHandler env { cf with npool := cf.npool + 1 } data with
            | none => .broken
            | some (cf, ok) => if ok then confParseCore env cf (some data) es else .error cf
        else confParseCore env cf data es
  | _ => .broken

/-- `conf_begin_parse` -/
def confBeginParse (cf : Conf) : List YEvent → ConfResult
  | [] => .error cf
  | .streamStart :: es | .documentStart :: es => confBeginParse cf es
  | .mappingStart :: es =>
      if cf.depth < confMaxDepth then .ok { cf with depth := cf.depth + 1 } es else .broken
  | _ => .broken

/-- `conf_end_parse` -/
def confEndParse (cf : Conf) : List YEvent → ConfResult
  | [] => .error cf
  | .streamEnd :: es => .ok cf es
  | .documentEnd :: es => confEndParse cf es
  | _ => .broken

/-- **`conf_parse`** -/
def confParse (env : ConfEnv) (es : List YEvent) : ConfResult :=
  match confBeginParse {} es with
  | .ok cf es =>
      match confParseCore env cf none es with
      | .ok cf es => if cf.depth = 0 then confEndParse cf es else .broken
      | r => r
  | r => r

/-! ### Configurations -/

/-- An entry of a pool. -/
inductive ConfEntry where
  | pair (key value : List Byte)
  | sequence (key : List Byte) (values : List (List Byte))
  deriving DecidableEq, Repr

/-- **A pool in the file.** -/
structure PoolConf where
  name : List Byte
  entries : List ConfEntry
  deriving DecidableEq, Repr

def ConfEntry.events : ConfEntry → List YEvent
  | pair key value => [.scalar key, .scalar value]
  | sequence key values => .scalar key :: .sequenceStart :: (values.map .scalar ++ [.sequenceEnd])

def PoolConf.events (p : PoolConf) : List YEvent :=
  .scalar p.name :: .mappingStart :: (p.entries.flatMap ConfEntry.events ++ [.mappingEnd])

/-- The events of a configuration. -/
def confEvents (ps : List PoolConf) : List YEvent :=
  [.streamStart, .documentStart, .mappingStart] ++ ps.flatMap PoolConf.events ++
    [.mappingEnd, .documentEnd, .streamEnd]

def ConfEntry.calls (data : ℕ) : ConfEntry → List ConfCall
  | pair key value => [.directive data key value]
  | sequence key values => values.map (.directive data key)

def PoolConf.calls (data : ℕ) (p : PoolConf) : List ConfCall :=
  .pool data p.name :: p.entries.flatMap (ConfEntry.calls data)

/-- **The calls a configuration asks for**: for each pool its name, and then each value with the key
of its entry. -/
def confCalls (data : ℕ) : List PoolConf → List ConfCall
  | [] => []
  | p :: ps => p.calls data ++ confCalls (data + 1) ps

/-! ### What the check lets pass -/

section Validating

variable {s s' : VState} {e : YEvent} {es : List YEvent}

theorem validateLoop_next (hstep : validateStep s e = .next s')
    (h : validateLoop s (e :: es) = some true) :
    validateLoop s' es = some true := by
  rw [validateLoop, hstep] at h
  exact h

theorem validateLoop_error (hstep : validateStep s e = .error) :
    validateLoop s (e :: es) ≠ some true := by
  rw [validateLoop, hstep]
  exact nofun

theorem nest_cons {n : Nest} (h : (e :: es).foldlM Nest.step n = some .finished) :
    ∃ n', n.step e = some n' ∧ es.foldlM Nest.step n' = some .finished := by
  rw [List.foldlM_cons] at h
  exact Option.bind_eq_some_iff.mp h

/-- A scalar inside a pool. -/
theorem validateStep_scalar (value : List Byte) (hdepth : s.depth = 2) :
    ∃ s', validateStep s (.scalar value) = .next s' ∧ s'.depth = 2 ∧ s'.seq = s.seq ∧
      s'.count 2 = if s.count 2 = 2 then 1 else s.count 2 + 1 := by
  refine ⟨_, by rw [validateStep, if_neg (by omega), if_neg (by simp [hdepth, confRootDepth])], ?_⟩
  by_cases hcount : s.count 2 = 2
  · rw [if_pos (by rw [hdepth]; exact ⟨rfl, hcount⟩), if_pos hcount]
    simp [VState.setCount, hdepth]
  · rw [if_neg (by rw [hdepth]; exact fun h => hcount h.2), if_neg hcount]
    simp [VState.setCount, hdepth]

/-- A mapping inside a pool is rejected. -/
theorem validateStep_mappingStart (hdepth : s.depth = 2) :
    validateStep s .mappingStart = .error := by
  simp [validateStep, hdepth, confRootDepth, confMaxDepth]

/-- Inside a pool, behind a complete entry. -/
structure AtEntry (s : VState) (seq : Bool) : Prop where
  depth : s.depth = 2
  count : s.count 2 = 0 ∨ s.count 2 = 2
  seq : s.seq = seq

/-- Between two pools. -/
structure AtPool (s : VState) : Prop where
  depth : s.depth = 1
  count : s.count 1 = 0
  entries : s.count 2 = 0 ∨ s.count 2 = 2
  seq : s.seq = false

/-- **The items of a sequence** are scalars. -/
theorem items_sound (es : List YEvent) {s : VState} (hdepth : s.depth = 2) (hseq : s.seq = true)
    (hnest : es.foldlM Nest.step (.within .item [.key, .key]) = some .finished)
    (h : validateLoop s es = some true) :
    ∃ (values : List (List Byte)) (rest : List YEvent) (s' : VState),
      es = values.map .scalar ++ .sequenceEnd :: rest ∧ AtEntry s' true ∧
      rest.foldlM Nest.step (.within .key [.key]) = some .finished ∧
        validateLoop s' rest = some true := by
  induction es generalizing s with
  | nil => cases h
  | cons e es ih =>
    obtain ⟨n, hn, hnest⟩ := nest_cons hnest
    cases e with
    | scalar value =>
      cases hn
      obtain ⟨s', hstep, hdepth', hseq', -⟩ := validateStep_scalar value hdepth
      obtain ⟨values, rest, s'', rfl, hat, hrest, hloop⟩ :=
        ih hdepth' (hseq'.trans hseq) hnest (validateLoop_next hstep h)
      exact ⟨value :: values, rest, s'', rfl, hat, hrest, hloop⟩
    | sequenceEnd =>
      cases hn
      have hstep : validateStep s .sequenceEnd = .next (s.setCount s.depth 0) := by
        simp [validateStep, hdepth, confMaxDepth, confRootDepth]
      refine ⟨[], es, s.setCount s.depth 0, rfl, ⟨hdepth, .inl ?_, hseq⟩, hnest,
        validateLoop_next hstep h⟩
      simp [VState.setCount, hdepth]
    | sequenceStart => exact absurd h (validateLoop_error (by simp [validateStep, hseq]))
    | mappingStart => exact absurd h (validateLoop_error (validateStep_mappingStart hdepth))
    | streamStart | streamEnd | documentStart | documentEnd | mappingEnd => cases hn

/-- The entry has a sequence of values. -/
def ConfEntry.isSequence : ConfEntry → Bool
  | sequence _ _ => true
  | pair _ _ => false

/-- **The entries of a pool**; there is one sequence among them. -/
theorem entries_sound (n : ℕ) (es : List YEvent) (hn : es.length ≤ n) {s : VState} {seq : Bool}
    (hat : AtEntry s seq)
    (hnest : es.foldlM Nest.step (.within .key [.key]) = some .finished)
    (h : validateLoop s es = some true) :
    ∃ (entries : List ConfEntry) (rest : List YEvent) (s' : VState),
      es = entries.flatMap ConfEntry.events ++ .mappingEnd :: rest ∧
      entries.countP ConfEntry.isSequence + seq.toNat = 1 ∧ AtPool s' ∧
      rest.foldlM Nest.step (.within .key []) = some .finished ∧
        validateLoop s' rest = some true := by
  induction n generalizing es s seq with
  | zero =>
    rw [List.length_eq_zero_iff.mp (Nat.le_zero.mp hn)] at h
    cases h
  | succ n ih =>
    cases es with
    | nil => cases h
    | cons e es =>
      obtain ⟨m, hm, hnest⟩ := nest_cons hnest
      cases e with
      | scalar key =>
        cases hm
        obtain ⟨s₁, hstep₁, hdepth₁, hseq₁, hcount₁⟩ := validateStep_scalar key hat.depth
        have hone : s₁.count 2 = 1 := by
          rcases hat.count with h0 | h2
          · rw [hcount₁, h0]
            rfl
          · rw [hcount₁, if_pos h2]
        have h₁ := validateLoop_next hstep₁ h
        cases es with
        | nil => cases h₁
        | cons e es =>
          obtain ⟨m, hm, hnest⟩ := nest_cons hnest
          cases e with
          | scalar value =>
            cases hm
            obtain ⟨s₂, hstep₂, hdepth₂, hseq₂, hcount₂⟩ := validateStep_scalar value hdepth₁
            have htwo : s₂.count 2 = 2 := by rw [hcount₂, hone]; rfl
            obtain ⟨entries, rest, s', rfl, hcount, hpool, hrest, hloop⟩ :=
              ih es (by simp at hn; omega)
                ⟨hdepth₂, .inr htwo, hseq₂.trans (hseq₁.trans hat.seq)⟩ hnest
                (validateLoop_next hstep₂ h₁)
            refine ⟨.pair key value :: entries, rest, s', rfl, ?_, hpool, hrest, hloop⟩
            rw [List.countP_cons_of_neg (by exact nofun)]
            exact hcount
          | sequenceStart =>
            cases hm
            cases seq with
            | true =>
              refine absurd h₁ (validateLoop_error ?_)
              simp [validateStep, hseq₁.trans hat.seq]
            | false =>
              have hstep₂ : validateStep s₁ .sequenceStart = .next { s₁ with seq := true } := by
                simp [validateStep, hseq₁.trans hat.seq, hdepth₁, confMaxDepth, confRootDepth, hone]
              obtain ⟨values, rest, s₂, rfl, hat₂, hrest, hloop⟩ :=
                items_sound es (by exact hdepth₁) rfl hnest (validateLoop_next hstep₂ h₁)
              obtain ⟨entries, rest', s', rfl, hcount, hpool, hrest', hloop'⟩ :=
                ih rest (by simp at hn; omega) hat₂ hrest hloop
              refine ⟨.sequence key values :: entries, rest',
                s', by simp [ConfEntry.events], ?_, hpool, hrest',
                hloop'⟩
              rw [List.countP_cons_of_pos rfl]
              exact hcount
          | mappingStart => exact absurd h₁ (validateLoop_error (validateStep_mappingStart hdepth₁))
          | streamStart => cases hm
          | streamEnd => cases hm
          | documentStart => cases hm
          | documentEnd => cases hm
          | mappingEnd => cases hm
          | sequenceEnd => cases hm
      | mappingEnd =>
        cases hm
        cases seq with
        | false =>
          refine absurd h (validateLoop_error ?_)
          simp [validateStep, hat.depth, hat.seq, confMaxDepth, confRootDepth]
        | true =>
          have hstep : validateStep s .mappingEnd =
              .next (VState.setCount { s with seq := false, depth := 1 } 1 0) := by
            simp [validateStep, hat.depth, hat.seq, confMaxDepth, confRootDepth]
          refine ⟨[], es, _, rfl, rfl, ⟨rfl, ?_, ?_, rfl⟩, hnest, validateLoop_next hstep h⟩
          · simp [VState.setCount]
          · simpa [VState.setCount] using hat.count
      | sequenceStart =>
        refine absurd h (validateLoop_error ?_)
        rcases hat.count with h0 | h2
        · simp [validateStep, hat.depth, confMaxDepth, confRootDepth, h0]
        · simp [validateStep, hat.depth, confMaxDepth, confRootDepth, h2]
      | mappingStart => exact absurd h (validateLoop_error (validateStep_mappingStart hat.depth))
      | streamStart => cases hm
      | streamEnd => cases hm
      | documentStart => cases hm
      | documentEnd => cases hm
      | sequenceEnd => cases hm

/-- **The pools of a file.** -/
theorem pools_sound (n : ℕ) (es : List YEvent) (hn : es.length ≤ n) {s : VState} (hat : AtPool s)
    (hnest : es.foldlM Nest.step (.within .key []) = some .finished)
    (h : validateLoop s es = some true) :
    ∃ ps : List PoolConf, es = ps.flatMap PoolConf.events ++
      [.mappingEnd, .documentEnd, .streamEnd] ∧
      ∀ p ∈ ps, p.entries.countP ConfEntry.isSequence = 1 := by
  induction n generalizing es s with
  | zero =>
    rw [List.length_eq_zero_iff.mp (Nat.le_zero.mp hn)] at h
    cases h
  | succ n ih =>
    cases es with
    | nil => cases h
    | cons e es =>
      obtain ⟨m, hm, hnest⟩ := nest_cons hnest
      cases e with
      | scalar name =>
        cases hm
        have hstep₁ : validateStep s (.scalar name) = .next (s.setCount 1 1) := by
          simp [validateStep, hat.depth, hat.count, confMaxDepth, confRootDepth]
        have h₁ := validateLoop_next hstep₁ h
        have hdepth₁ : (s.setCount 1 1).depth = 1 := hat.depth
        have hcount₁ : (s.setCount 1 1).count 1 = 1 := by simp [VState.setCount]
        have hseq₁ : (s.setCount 1 1).seq = false := hat.seq
        cases es with
        | nil => cases h₁
        | cons e es =>
          obtain ⟨m, hm, hnest⟩ := nest_cons hnest
          cases e with
          | mappingStart =>
            cases hm
            have hstep₂ : validateStep (s.setCount 1 1) .mappingStart =
                .next { s.setCount 1 1 with depth := 2 } := by
              simp [validateStep, hdepth₁, hcount₁, confMaxDepth, confRootDepth]
            have hentry : AtEntry { s.setCount 1 1 with depth := 2 } false :=
              ⟨rfl, by simpa [VState.setCount] using hat.entries, hseq₁⟩
            obtain ⟨entries, rest, s', rfl, hcount, hpool, hrest, hloop⟩ :=
              entries_sound _ es (le_refl _) hentry hnest (validateLoop_next hstep₂ h₁)
            obtain ⟨ps, rfl, hps⟩ := ih rest (by simp at hn; omega) hpool hrest hloop
            refine ⟨⟨name, entries⟩ :: ps, by simp [PoolConf.events], ?_⟩
            intro p hp
            rcases List.mem_cons.mp hp with rfl | hp
            · exact hcount
            · exact hps p hp
          | scalar =>
            refine absurd h₁ (validateLoop_error ?_)
            simp [validateStep, hdepth₁, hcount₁, confRootDepth]
          | sequenceStart =>
            refine absurd h₁ (validateLoop_error ?_)
            simp [validateStep, hdepth₁, hseq₁, confRootDepth, confMaxDepth]
          | streamStart => cases hm
          | streamEnd => cases hm
          | documentStart => cases hm
          | documentEnd => cases hm
          | mappingEnd => cases hm
          | sequenceEnd => cases hm
      | mappingEnd =>
        cases hm
        -- Behind the document only its end can come.
        cases es with
        | nil => cases hnest
        | cons e es =>
          obtain ⟨m, hm, hnest⟩ := nest_cons hnest
          cases e <;> cases hm
          cases es with
          | nil => cases hnest
          | cons e es =>
            obtain ⟨m, hm, hnest⟩ := nest_cons hnest
            cases e <;> cases hm
            cases es with
            | nil => exact ⟨[], rfl, by simp⟩
            | cons e =>
              obtain ⟨m, hm, -⟩ := nest_cons hnest
              cases e <;> cases hm
      | sequenceStart =>
        refine absurd h (validateLoop_error ?_)
        simp [validateStep, hat.depth, hat.seq, confRootDepth, confMaxDepth]
      | mappingStart =>
        refine absurd h (validateLoop_error ?_)
        simp [validateStep, hat.depth, hat.count, confRootDepth]
      | streamStart => cases hm
      | streamEnd => cases hm
      | documentStart => cases hm
      | documentEnd => cases hm
      | sequenceEnd => cases hm

/-- **What is accepted are the events of a configuration**, in which every pool has one sequence. -/
theorem confValidateStructure_sound (hnest : WellNested es)
    (h : confValidateStructure es = some true) :
    ∃ ps, es = confEvents ps ∧ ∀ p ∈ ps, p.entries.countP ConfEntry.isSequence = 1 := by
  unfold WellNested at hnest
  unfold confValidateStructure at h
  cases es with
  | nil => cases h
  | cons e es =>
    obtain ⟨m, hm, hnest⟩ := nest_cons hnest
    cases e <;> cases hm
    have h := validateLoop_next rfl h
    cases es with
    | nil => cases h
    | cons e es =>
      obtain ⟨m, hm, hnest⟩ := nest_cons hnest
      cases e <;> cases hm
      have h := validateLoop_next rfl h
      cases es with
      | nil => cases h
      | cons e es =>
        obtain ⟨m, hm, hnest⟩ := nest_cons hnest
        cases e with
        | mappingStart =>
          cases hm
          have hstep : validateStep {} .mappingStart = .next { depth := 1 } := rfl
          obtain ⟨ps, rfl, hps⟩ := pools_sound _ es (le_refl _) ⟨rfl, rfl, .inl rfl, rfl⟩ hnest
            (validateLoop_next hstep h)
          exact ⟨ps, rfl, hps⟩
        | scalar => exact absurd h (validateLoop_error rfl)
        | sequenceStart => exact absurd h (validateLoop_error rfl)
        | streamStart => cases hm
        | streamEnd => cases hm
        | documentStart => cases hm
        | documentEnd => cases hm
        | mappingEnd => cases hm
        | sequenceEnd => cases hm

end Validating

/-! ### The parser on a configuration -/

section Parsing

variable {env : ConfEnv} {data npool : ℕ} {calls : List ConfCall} {key name : List Byte}

/-- The parser stopped with an error, and made some of the calls. -/
def Stopped (calls : List ConfCall) (r : ConfResult) : Prop :=
  ∃ cf, r = .error cf ∧ cf.calls <+: calls

theorem Stopped.mono {r : ConfResult} (h : Stopped calls r) (more : List ConfCall) :
    Stopped (calls ++ more) r := by
  obtain ⟨cf, hr, hpre⟩ := h
  exact ⟨cf, hr, hpre.trans (List.prefix_append _ _)⟩

/-- **The parser gets from one place to another** and makes some calls, or it stops on the way. -/
def Gets (env : ConfEnv) (cf : Conf) (data : Option ℕ) (es : List YEvent) (cs : List ConfCall)
    (cf' : Conf)
    (data' : Option ℕ) : Prop :=
  ∀ rest, Stopped (cf.calls ++ cs) (confParseCore env cf data (es ++ rest)) ∨
    confParseCore env cf data (es ++ rest) = confParseCore env cf' data' rest

theorem Gets.trans {cf cf' cf'' : Conf} {data data' data'' : Option ℕ} {es es' : List YEvent}
    {cs cs' : List ConfCall} (h : Gets env cf data es cs cf' data')
    (hcalls : cf'.calls = cf.calls ++ cs)
    (h' : Gets env cf' data' es' cs' cf'' data'') :
    Gets env cf data (es ++ es') (cs ++ cs') cf'' data'' := by
  intro rest
  rw [List.append_assoc]
  rcases h (es' ++ rest) with hstop | hrun
  · left
    rw [← List.append_assoc]
    exact hstop.mono cs'
  · rw [hrun]
    rcases h' rest with hstop | hrun'
    · left
      rwa [hcalls, List.append_assoc] at hstop
    · exact .inr hrun'

/-- **A value of a directive**: the key is directly below it on the stack. -/
theorem gets_leaf (value : List Byte) (seq : Bool) :
    Gets env ⟨2, seq, [key, name], npool, calls⟩ (some data) [.scalar value]
      [.directive data key value]
      ⟨2, seq, if seq then [key, name] else [name], npool, calls ++ [.directive data key value]⟩
        (some data) := by
  intro rest
  rw [List.singleton_append, confParseCore]
  split
  · exact .inl ⟨_, rfl, List.prefix_append _ _⟩
  · dsimp only
    rw [if_pos (.inr ⟨by decide, rfl⟩), if_neg (by decide)]
    simp only [confLeaf, confHandler, confPopScalar]
    cases env.handles (calls ++ [ConfCall.directive data key value]) with
    | true =>
      right
      cases seq <;> rfl
    | false =>
      left
      cases seq <;> exact ⟨_, rfl, List.prefix_refl _⟩

/-- A key inside of a pool is pushed. -/
theorem gets_key :
    Gets env ⟨2, false, [name], npool, calls⟩ (some data) [.scalar key] []
      ⟨2, false, [key, name], npool, calls⟩ (some data) := by
  intro rest
  rw [List.singleton_append, confParseCore]
  split
  · exact .inl ⟨_, rfl, List.prefix_append _ _⟩
  · exact .inr rfl

/-- **The values of a sequence.** -/
theorem gets_items (values : List (List Byte)) :
    Gets env ⟨2, true, [key, name], npool, calls⟩ (some data) (values.map .scalar)
      (values.map (.directive data key))
      ⟨2, true, [key, name], npool, calls ++ values.map (.directive data key)⟩ (some data) := by
  induction values generalizing calls with
  | nil =>
    intro rest
    simp
  | cons value values ih =>
    have h := (gets_leaf value true).trans rfl (ih :
      Gets env ⟨2, true, [key, name], npool, calls ++ [.directive data key value]⟩ _ _ _ _ _)
    simpa using h

/-- **An entry of a pool.** -/
theorem gets_entry (entry : ConfEntry) :
    Gets env ⟨2, false, [name], npool, calls⟩ (some data) entry.events (entry.calls data)
      ⟨2, false, [name], npool, calls ++ entry.calls data⟩ (some data) := by
  cases entry with
  | pair key value => exact gets_key.trans (by simp) (gets_leaf value false)
  | sequence key values =>
    have hstart : Gets env ⟨2, false, [key, name], npool, calls⟩ (some data) [.sequenceStart] []
        ⟨2, true, [key, name], npool, calls⟩ (some data) := fun rest => .inr rfl
    have hend : Gets env ⟨2, true, [key, name], npool, calls ++ values.map (.directive data key)⟩
      (some data)
        [.sequenceEnd] [] ⟨2, false, [name], npool, calls ++ values.map (.directive data key)⟩
        (some data) :=
      fun rest => .inr rfl
    have h := ((gets_key.trans (by simp) hstart).trans (by simp) (gets_items values)).trans
      (by simp) hend
    simpa [ConfEntry.events, ConfEntry.calls] using h

theorem gets_entries (entries : List ConfEntry) :
    Gets env ⟨2, false, [name], npool, calls⟩ (some data) (entries.flatMap ConfEntry.events)
      (entries.flatMap (ConfEntry.calls data))
      ⟨2, false, [name], npool, calls ++ entries.flatMap (ConfEntry.calls data)⟩ (some data) := by
  induction entries generalizing calls with
  | nil =>
    intro rest
    simp
  | cons entry entries ih =>
    have h := (gets_entry entry).trans rfl (ih :
      Gets env ⟨2, false, [name], npool, calls ++ entry.calls data⟩ _ _ _ _ _)
    simpa using h

/-- **A pool**: a new one is made, and all that belongs to it is handled with it. -/
theorem gets_pool (p : PoolConf) (data : Option ℕ) :
    Gets env ⟨1, false, [], npool, calls⟩ data p.events (p.calls npool)
      ⟨1, false, [], npool + 1, calls ++ p.calls npool⟩ (some npool) := by
  have hname : Gets env ⟨1, false, [], npool, calls⟩ data [.scalar p.name] [.pool npool p.name]
      ⟨1, false, [p.name], npool + 1, calls ++ [.pool npool p.name]⟩ (some npool) := by
    intro rest
    rw [List.singleton_append, confParseCore]
    split
    · exact .inl ⟨_, rfl, List.prefix_append _ _⟩
    · dsimp only
      rw [if_neg (by simp [confRootDepth]), if_pos (show 1 = confRootDepth from rfl)]
      split
      · exact .inl ⟨_, rfl, List.prefix_append _ _⟩
      · simp only [confHandler]
        cases env.handles (calls ++ [ConfCall.pool npool p.name]) with
        | true => exact .inr rfl
        | false => exact .inl ⟨_, rfl, List.prefix_refl _⟩
  have hstart : Gets env ⟨1, false, [p.name], npool + 1, calls ++ [.pool npool p.name]⟩ (some npool)
      [.mappingStart] [] ⟨2, false, [p.name], npool + 1, calls ++ [.pool npool p.name]⟩
      (some npool) :=
    fun rest => .inr rfl
  have hend : Gets env
      ⟨2, false, [p.name], npool + 1,
        calls ++ [.pool npool p.name] ++ p.entries.flatMap (ConfEntry.calls npool)⟩ (some npool)
      [.mappingEnd] []
      ⟨1, false, [], npool + 1, calls ++ [.pool npool p.name] ++ p.entries.flatMap
        (ConfEntry.calls npool)⟩
      (some npool) := fun rest => .inr rfl
  have h := ((hname.trans rfl hstart).trans (by simp) (gets_entries p.entries)).trans (by simp) hend
  simpa [PoolConf.events, PoolConf.calls] using h

theorem gets_pools (ps : List PoolConf) (data : Option ℕ) :
    ∃ data', Gets env ⟨1, false, [], npool, calls⟩ data (ps.flatMap PoolConf.events)
      (confCalls npool ps)
      ⟨1, false, [], npool + ps.length, calls ++ confCalls npool ps⟩ data' := by
  induction ps generalizing npool calls data with
  | nil => exact ⟨data, fun rest => .inr (by simp [confCalls])⟩
  | cons p ps ih =>
    obtain ⟨data', hrest⟩ := (ih (some npool) : ∃ data',
      Gets env ⟨1, false, [], npool + 1, calls ++ p.calls npool⟩ _ _ _ _ data')
    refine ⟨data', ?_⟩
    have h := (gets_pool p data).trans rfl hrest
    simpa [confCalls, Nat.add_assoc, Nat.add_comm 1] using h

/-- **The parser on the events of a configuration** makes the calls it asks for and ends with an
empty stack, or stops with an error after some of the calls. -/
theorem confParse_events (env : ConfEnv) (ps : List PoolConf) :
    Stopped (confCalls 0 ps) (confParse env (confEvents ps)) ∨
      confParse env (confEvents ps) = .ok ⟨0, false, [], ps.length, confCalls 0 ps⟩ [] := by
  obtain ⟨data', h⟩ := (gets_pools ps none : ∃ data', Gets env ⟨1, false, [], 0, []⟩ _ _ _ _ data')
  have hbegin : confBeginParse {} (confEvents ps) =
      .ok ⟨1, false, [], 0, []⟩
        (ps.flatMap PoolConf.events ++ [.mappingEnd, .documentEnd, .streamEnd]) := rfl
  rw [confParse, hbegin]
  dsimp only
  rcases h [.mappingEnd, .documentEnd, .streamEnd] with ⟨cf, hstop, hpre⟩ | hrun
  · left
    rw [hstop]
    exact ⟨cf, rfl, by simpa using hpre⟩
  · right
    rw [hrun, Nat.zero_add, List.nil_append]
    rfl

end Parsing

/-- **The check guarantees what the parser assumes.**  Of a well nested stream that
`conf_validate_structure` accepts the parser never reaches what it should not, and it ends with an
empty stack or with an error status; its calls of `conf_handler` are, in order, those that the pools
ask for, each with the newest pool, up to where it stopped. -/
theorem parser_safe (env : ConfEnv) {es : List YEvent} (nested : WellNested es)
    (valid : confValidateStructure es = some true) :
    ∃ ps, es = confEvents ps ∧
      ((∃ cf, confParse env es = .error cf ∧ cf.calls <+: confCalls 0 ps) ∨
        ∃ cf, confParse env es = .ok cf [] ∧ cf.arg = [] ∧ cf.depth = 0 ∧ cf.npool = ps.length ∧
          cf.calls = confCalls 0 ps) := by
  obtain ⟨ps, rfl, -⟩ := confValidateStructure_sound nested valid
  refine ⟨ps, rfl, ?_⟩
  rcases confParse_events env ps with hstop | hrun
  · exact .inl hstop
  · exact .inr ⟨_, hrun, rfl, rfl, rfl, rfl⟩

/-- A pool with a key, and one with a sequence behind it. -/
def twoPools : List PoolConf :=
  [⟨[97], [.pair [107] [118], .sequence [115] [[49], [50]]]⟩,
    ⟨[98], [.sequence [115] [], .pair [107] [118]]⟩]

/-- Two pools are parsed. -/
theorem parser_safe_twoPools :
    ∃ ps, confEvents twoPools = confEvents ps ∧
      ((∃ cf, confParse ⟨fun _ => true, fun _ => true⟩ (confEvents twoPools) = .error cf ∧
          cf.calls <+: confCalls 0 ps) ∨
        ∃ cf, confParse ⟨fun _ => true, fun _ => true⟩ (confEvents twoPools) = .ok cf [] ∧
          cf.arg = [] ∧
          cf.depth = 0 ∧ cf.npool = ps.length ∧ cf.calls = confCalls 0 ps) :=
  parser_safe _ (by decide) (by decide)

end CacheProxy
