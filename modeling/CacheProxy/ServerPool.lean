/-
**The ring of a pool.**

A pool distributes keys over its servers with an array, the continuum, that is rebuilt when a server
is ejected and when one may be tried again.  Each rebuild counts the servers that are live, enlarges
the array if there are more than it was made for, and writes the entries of the live servers in a
second loop; with no live server the array is left as it is.  The array is modelled with its
allocated size: an entry that was never written is `none`, and a write behind the end gives no state
at all.

Main definitions:

* `ServerPool`, `serverPoolRun` — a pool, and the rebuild for each of the three distributions;
* `serverPoolUpdate`, `serverFailure`, `serverOk` — what makes the pool rebuild its ring;
* `serverPoolIdx` — the server of a key;
* `ringOf` — the entries of the live servers, in the order of the servers.

Main results:

* `scan_eq`, `place_eq` — the two loops;
* `ring_contents` — **contents and capacity of the ring**.
-/

import CacheProxy.Decimal
import Mathlib.Algebra.Order.BigOperators.Group.List
import Mathlib.Data.List.Induction

namespace CacheProxy

/-! ### Pools -/

/-- `struct server`, as far as the pool reads it.  `ejectedAt` is the statistic
`server_ejected_at`. -/
structure PoolServer where
  name : List Byte := []
  weight : ℕ
  nextRetry : ℤ := 0
  failureCount : ℕ := 0
  ejectedAt : Option ℤ := none
  deriving DecidableEq, Repr

/-- `struct continuum`; the name that is kept for the log is left out. -/
structure RingEntry where
  index : ℕ
  value : ℕ
  deriving DecidableEq, Repr

/-- `dist_type_t` -/
inductive DistType where
  | ketama
  | modula
  | random
  deriving DecidableEq, Repr

/-- `rstatus_t` -/
inductive RStatus where
  | ok
  | error
  | enomem
  deriving DecidableEq, Repr

/-- `struct server_pool`, as far as the distribution goes.  `continuum` is the allocated array, `[]`
for `NULL`; the hash tag is a pair of characters. -/
structure ServerPool where
  server : List PoolServer
  continuum : List (Option RingEntry) := []
  ncontinuum : ℕ := 0
  nserverContinuum : ℕ := 0
  nliveServer : ℕ := 0
  nextRebuild : ℤ := 0
  distType : DistType
  hashTag : Option (Byte × Byte) := none
  autoEjectHosts : Bool := true
  serverRetryTimeout : ℤ := 30000000
  serverFailureLimit : ℕ := 2
  deriving DecidableEq, Repr

/-- The functions a pool is used with: `pool->key_hash`; `ketama_hash` of the text made of a name
and a number; the number of such texts for a weight, the total weight and the number of live
servers, which is computed with floating point numbers; and `qsort` with `ketama_item_cmp`. -/
structure Hashing where
  keyHash : List Byte → ℕ
  ketamaHash : List Byte → ℕ → ℕ → ℕ
  ketamaHosts : ℕ → ℕ → ℕ → ℕ
  qsort : List RingEntry → List RingEntry

/-- What a rebuild gets from the system: the clock in microseconds, and whether memory is left. -/
structure Sys where
  now : ℤ
  alloc : Bool := true
  deriving DecidableEq, Repr

/-! ### Rebuilding the ring -/

/-- A server is live at the time. -/
def IsLive (eject : Bool) (now : ℤ) (s : PoolServer) : Bool := !eject || s.nextRetry ≤ now

/-- The variables of the first loop. -/
structure Scan where
  server : List PoolServer := []
  nliveServer : ℕ := 0
  totalWeight : ℕ := 0
  nextRebuild : ℤ := 0

/-- The first loop, for one server. -/
def scanOne (eject : Bool) (now : ℤ) (a : Scan) (s : PoolServer) : Scan :=
  let t := if eject ∧ s.nextRetry ≤ now then { s with nextRetry := 0 } else s
  { server := a.server ++ [t]
    nliveServer := if eject ∧ ¬s.nextRetry ≤ now then a.nliveServer else a.nliveServer + 1
    totalWeight :=
      if eject = false ∨ t.nextRetry ≤ now then (a.totalWeight + t.weight) % 2 ^ 32
        else a.totalWeight
    nextRebuild :=
      if eject ∧ ¬s.nextRetry ≤ now then
        if a.nextRebuild = 0 ∨ s.nextRetry < a.nextRebuild then s.nextRetry else a.nextRebuild
      else a.nextRebuild }

/-- The first loop. -/
def scanServers (eject : Bool) (now : ℤ) (ss : List PoolServer) : Scan :=
  ss.foldl (scanOne eject now) {}

/-- The values of the points of a server; `total` and `live` are the total weight and the number of
live servers. -/
def pointValues (env : Hashing) (total live : ℕ) (s : PoolServer) : List ℕ :=
  (List.range (env.ketamaHosts s.weight total live)).flatMap fun j =>
    (List.range 4).map fun x => env.ketamaHash s.name j x

/-- The entries of a live server. -/
def DistType.entries (env : Hashing) (total live : ℕ) (i : ℕ) (s : PoolServer) :
    DistType → List RingEntry
  | modula => List.replicate s.weight ⟨i, 0⟩
  | random => [⟨i, 0⟩]
  | ketama => (pointValues env total live s).map fun v => ⟨i, v⟩

/-- `*_POINTS_PER_SERVER` -/
def DistType.pointsPerServer : DistType → ℕ
  | ketama => 160
  | modula | random => 1

/-- What `nserver_continuum` is compared with. -/
def DistType.needed (a : Scan) : DistType → ℕ
  | modula => a.totalWeight
  | ketama | random => a.nliveServer

/-- `*_CONTINUUM_ADDITION` -/
def continuumAddition : ℕ := 10

/-- `nc_realloc` -/
def ncRealloc (ring : List (Option RingEntry)) (n : ℕ) : List (Option RingEntry) :=
  ring.take n ++ List.replicate (n - ring.length) none

/-- The entries of a server are written, from `continuum_index` on. -/
def writeEntries : List RingEntry → List (Option RingEntry) × ℕ →
    Option (List (Option RingEntry) × ℕ)
  | [], m => some m
  | e :: es, (ring, i) =>
      if i < ring.length then writeEntries es (ring.set i (some e), (i + 1) % 2 ^ 32) else none

/-- The second loop, from the server with the index `k` on. -/
def placeServers (eject : Bool) (now : ℤ) (entries : ℕ → PoolServer → List RingEntry) :
    ℕ → List PoolServer → List (Option RingEntry) × ℕ → Option (List (Option RingEntry) × ℕ)
  | _, [], m => some m
  | k, s :: ss, m =>
      if eject ∧ s.nextRetry > now then placeServers eject now entries (k + 1) ss m
      else
        match writeEntries (entries k s) m with
        | none => none
        | some m' => placeServers eject now entries (k + 1) ss m'

/-- What is done with the entries that were written. -/
def DistType.finish (env : Hashing) (ring : List (Option RingEntry)) (n : ℕ) :
    DistType → List (Option RingEntry)
  | ketama => (env.qsort ((ring.take n).filterMap id)).map some ++ ring.drop n
  | modula | random => ring

/-- The second half of a rebuild. -/
def rebuild (env : Hashing) (p : ServerPool) (total : ℕ) (now : ℤ) :
    Option (RStatus × ServerPool) :=
  match placeServers p.autoEjectHosts now
      (fun i s => p.distType.entries env total p.nliveServer i s) 0 p.server (p.continuum, 0) with
  | none => none
  | some (ring, n) => some
      (.ok, { p with continuum := p.distType.finish env ring n, ncontinuum := n })

/-- **`server_pool_run`**: `ketama_update`, `modula_update` or `random_update`.  There is no result
if an entry is written outside of the array. -/
def serverPoolRun (env : Hashing) (p : ServerPool) (sys : Sys) : Option (RStatus × ServerPool) :=
  if sys.now < 0 then some (.error, p)
  else
    let a := scanServers p.autoEjectHosts sys.now p.server
    let p := { p with
      server := a.server, nextRebuild := a.nextRebuild, nliveServer := a.nliveServer }
    if a.nliveServer = 0 then some (.ok, p)
    else if p.distType.needed a > p.nserverContinuum then
      if sys.alloc then
        let n := (p.distType.needed a + continuumAddition) % 2 ^ 32
        rebuild env
          { p with
            continuum := ncRealloc p.continuum (n * p.distType.pointsPerServer % 2 ^ 32)
            nserverContinuum := n }
          a.totalWeight sys.now
      else some (.enomem, p)
    else rebuild env p a.totalWeight sys.now

/-! ### What makes a pool rebuild its ring -/

/-- `server_pool_update`; `now` is its own reading of the clock. -/
def serverPoolUpdate (env : Hashing) (p : ServerPool) (now : ℤ) (sys : Sys) :
    Option (RStatus × ServerPool) :=
  if !p.autoEjectHosts then some (.ok, p)
  else if p.nextRebuild = 0 then some (.ok, p)
  else if now < 0 then some (.error, p)
  else if now ≤ p.nextRebuild then
    if p.nliveServer = 0 then some (.error, p) else some (.ok, p)
  else serverPoolRun env p sys

/-- `server_failure`, for the server with the index `i`. -/
def serverFailure (env : Hashing) (p : ServerPool) (i : ℕ) (now : ℤ) (sys : Sys) :
    Option ServerPool :=
  if !p.autoEjectHosts then some p
  else
    let p := { p with
      server := p.server.modify i fun s =>
        { s with failureCount := (s.failureCount + 1) % 2 ^ 32 } }
    match p.server[i]? with
    | none => some p
    | some s =>
        if s.failureCount < p.serverFailureLimit then some p
        else if now < 0 then some p
        else
          (serverPoolRun env
            { p with
              server := p.server.modify i fun s =>
                { s with
                  failureCount := 0, nextRetry := now + p.serverRetryTimeout, ejectedAt :=
                    some now } }
            sys).map Prod.snd

/-- `server_ok`, for the server with the index `i`. -/
def serverOk (p : ServerPool) (i : ℕ) : ServerPool :=
  { p with
    server := p.server.modify i fun s =>
      if s.failureCount ≠ 0 then { s with failureCount := 0, nextRetry := 0 } else s }

/-! ### The server of a key -/

/-- The loop of `ketama_dispatch`. -/
def ketamaSearch (ring : List (Option RingEntry)) (hash : ℕ) : ℕ → ℕ → ℕ → Option ℕ
  | 0, _, right => some right
  | fuel + 1, left, right =>
      if left < right then
        let middle := left + (right - left) / 2
        match ring[middle]? with
        | some (some e) =>
            if e.value < hash then ketamaSearch ring hash fuel (middle + 1) right
            else ketamaSearch ring hash fuel left middle
        | _ => none
      else some right

/-- `ketama_dispatch`; there is no result if the assertion fails or memory is read that was not
written. -/
def ketamaDispatch (ring : List (Option RingEntry)) (ncontinuum hash : ℕ) : Option ℕ :=
  if ncontinuum = 0 then none
  else
    match ketamaSearch ring hash ncontinuum 0 ncontinuum with
    | none => none
    | some right =>
        match ring[if right = ncontinuum then 0 else right]? with
        | some (some e) => some e.index
        | _ => none

/-- `modula_dispatch`, and `random_dispatch` with a random number for the hash. -/
def modulaDispatch (ring : List (Option RingEntry)) (ncontinuum hash : ℕ) : Option ℕ :=
  if ncontinuum = 0 then none
  else
    match ring[hash % ncontinuum]? with
    | some (some e) => some e.index
    | _ => none

/-- `nc_strchr`: what is behind the first `c`. -/
def ncStrchr (c : Byte) : List Byte → Option (List Byte)
  | [] => none
  | b :: bs => if b = c then some bs else ncStrchr c bs

/-- The part of the key that is hashed. -/
def taggedKey (tag : Option (Byte × Byte)) (key : List Byte) : List Byte :=
  match tag with
  | none => key
  | some (l, r) =>
      match ncStrchr l key with
      | none => key
      | some rest =>
          match ncStrchr r rest with
          | none => key
          | some behind => if rest.length - behind.length > 1 then rest.take
              (rest.length - behind.length - 1)
              else key

/-- `server_pool_hash` -/
def serverPoolHash (env : Hashing) (p : ServerPool) (key : List Byte) : ℕ :=
  if p.server.length = 1 then 0 else if key.length = 0 then 0 else env.keyHash key

/-- **`server_pool_idx`**; `rnd` is what `random` gives. -/
def serverPoolIdx (env : Hashing) (p : ServerPool) (rnd : ℕ) (key : List Byte) : Option ℕ :=
  let hash := serverPoolHash env p (taggedKey p.hashTag key)
  match p.distType with
  | .ketama => ketamaDispatch p.continuum p.ncontinuum hash
  | .modula => modulaDispatch p.continuum p.ncontinuum hash
  | .random => modulaDispatch p.continuum p.ncontinuum rnd

/-! ### The first loop -/

section Scanning

variable {eject : Bool} {now : ℤ}

/-- What the first loop leaves of a server. -/
def settle (eject : Bool) (now : ℤ) (s : PoolServer) : PoolServer :=
  if eject ∧ s.nextRetry ≤ now then { s with nextRetry := 0 } else s

@[simp] theorem settle_weight (s : PoolServer) : (settle eject now s).weight = s.weight := by
  unfold settle
  split <;> rfl

@[simp] theorem settle_name (s : PoolServer) : (settle eject now s).name = s.name := by
  unfold settle
  split <;> rfl

@[simp] theorem settle_ejectedAt (s : PoolServer) :
  (settle eject now s).ejectedAt = s.ejectedAt := by
  unfold settle
  split <;> rfl

theorem live_settle (hnow : 0 ≤ now) (s : PoolServer) :
    IsLive eject now (settle eject now s) = IsLive eject now s := by
  unfold settle
  split
  · next h => simp [IsLive, h.1, h.2, hnow]
  · rfl

theorem live_eq_false_iff {s : PoolServer} :
    IsLive eject now s = false ↔ eject = true ∧ now < s.nextRetry := by
  simp [IsLive]

theorem not_live_iff {s : PoolServer} : eject = true ∧ ¬s.nextRetry ≤ now ↔
    ¬IsLive eject now s = true := by
  simp [IsLive]

/-- The weight of the servers that are live. -/
def liveWeight (eject : Bool) (now : ℤ) (ss : List PoolServer) : ℕ :=
  ((ss.filter (IsLive eject now)).map PoolServer.weight).sum

theorem foldl_scan_server (ss : List PoolServer) (a : Scan) :
    (ss.foldl (scanOne eject now) a).server = a.server ++ ss.map (settle eject now) := by
  induction ss generalizing a with
  | nil => simp
  | cons s ss ih => rw [List.foldl_cons, ih, List.map_cons, List.append_cons]; rfl

theorem foldl_scan_nlive (ss : List PoolServer) (a : Scan) :
    (ss.foldl (scanOne eject now) a).nliveServer = a.nliveServer + ss.countP
      (IsLive eject now) := by
  induction ss generalizing a with
  | nil => simp
  | cons s ss ih =>
    rw [List.foldl_cons, ih, List.countP_cons]
    simp only [scanOne, not_live_iff]
    split
    · simp
    · next h =>
      rw [if_pos (not_not.mp h)]
      omega

theorem foldl_scan_total (hnow : 0 ≤ now) (ss : List PoolServer) (a : Scan)
    (ha : a.totalWeight < 2 ^ 32) :
    (ss.foldl (scanOne eject now) a).totalWeight =
      (a.totalWeight + liveWeight eject now ss) % 2 ^ 32 := by
  induction ss generalizing a with
  | nil => exact (Nat.mod_eq_of_lt ha).symm
  | cons s ss ih =>
    have hone : (scanOne eject now a s).totalWeight =
        if IsLive eject now s then (a.totalWeight + s.weight) % 2 ^ 32 else a.totalWeight := by
      change (if eject = false ∨ (settle eject now s).nextRetry ≤ now then
        (a.totalWeight + (settle eject now s).weight) % 2 ^ 32 else a.totalWeight) = _
      rw [← live_settle hnow, settle_weight]
      simp only [IsLive, Bool.or_eq_true, Bool.not_eq_true', decide_eq_true_eq]
    have hlt : (scanOne eject now a s).totalWeight < 2 ^ 32 := by
      rw [hone]
      split
      · exact Nat.mod_lt _ (by norm_num)
      · exact ha
    rw [List.foldl_cons, ih _ hlt, hone]
    by_cases hs : IsLive eject now s = true
    · simp [liveWeight, hs, Nat.add_assoc]
    · simp [liveWeight, hs]

/-- The earliest time after `now` at which a server may be tried again, zero if there is none. -/
structure Earliest (now : ℤ) (ss : List PoolServer) (next : ℤ) : Prop where
  le : ∀ s ∈ ss, now < s.nextRetry → next ≠ 0 ∧ next ≤ s.nextRetry
  mem : next ≠ 0 → ∃ s ∈ ss, now < s.nextRetry ∧ s.nextRetry = next

theorem Earliest.snoc {ss : List PoolServer} {next : ℤ} (hnow : 0 ≤ now) (h : Earliest now ss next)
    (s : PoolServer) : Earliest now (ss ++ [s])
      (if now < s.nextRetry then if next = 0 ∨
        s.nextRetry < next then s.nextRetry else next else next) := by
  have hzero : now < s.nextRetry → s.nextRetry ≠ 0 := fun hlt heq => by omega
  constructor
  · intro t ht hlt
    rcases List.mem_append.mp ht with ht | ht
    · obtain ⟨hne, hle⟩ := h.le t ht hlt
      split
      · next hs =>
        split
        · next hor => exact ⟨hzero hs, by rcases hor with h0 | h1 <;> [exact absurd h0 hne; omega]⟩
        · exact ⟨hne, hle⟩
      · exact ⟨hne, hle⟩
    · cases List.mem_singleton.mp ht
      rw [if_pos hlt]
      split
      · exact ⟨hzero hlt, le_refl _⟩
      · next hor => exact ⟨fun h0 => hor (.inl h0), not_lt.mp fun h1 => hor (.inr h1)⟩
  · have hold (hne : next ≠ 0) : ∃ t ∈ ss ++ [s], now < t.nextRetry ∧ t.nextRetry = next := by
      obtain ⟨t, ht, hlt, heq⟩ := h.mem hne
      exact ⟨t, by simp [ht], hlt, heq⟩
    split
    · next hs =>
      split
      · exact fun _ => ⟨s, by simp, hs, rfl⟩
      · exact hold
    · exact hold

theorem foldl_scan_rebuild (hnow : 0 ≤ now) (ss : List PoolServer) :
    Earliest now ss (scanServers true now ss).nextRebuild := by
  induction ss using List.reverseRecOn with
  | nil => exact ⟨fun _ h => absurd h (List.not_mem_nil), fun h => absurd rfl h⟩
  | append_singleton ss s ih =>
    have hone (a : Scan) : (scanOne true now a s).nextRebuild =
        if now < s.nextRetry then
          if a.nextRebuild = 0 ∨ s.nextRetry < a.nextRebuild then s.nextRetry else a.nextRebuild
        else a.nextRebuild := by
      simp [scanOne]
    have h := ih.snoc hnow s
    rw [← hone] at h
    rwa [scanServers, List.foldl_append]

/-- **The first loop.** -/
theorem scan_eq (eject : Bool) {now : ℤ} (hnow : 0 ≤ now) (ss : List PoolServer) :
    (scanServers eject now ss).server = ss.map (settle eject now) ∧
      (scanServers eject now ss).nliveServer = ss.countP (IsLive eject now) ∧
      (scanServers eject now ss).totalWeight = liveWeight eject now ss % 2 ^ 32 := by
  refine ⟨?_, ?_, ?_⟩
  · rw [scanServers, foldl_scan_server, List.nil_append]
  · rw [scanServers, foldl_scan_nlive, Nat.zero_add]
  · rw [scanServers, foldl_scan_total hnow _ _ (by norm_num), Nat.zero_add]

end Scanning

/-! ### The second loop -/

section Placing

variable {eject : Bool} {now : ℤ} {entries : ℕ → PoolServer → List RingEntry}

/-- **The entries of the live servers**, from the server with the index `k` on. -/
def ringOf (eject : Bool) (now : ℤ) (entries : ℕ → PoolServer → List RingEntry) (k : ℕ)
    (ss : List PoolServer) : List RingEntry :=
  (ss.zipIdx k).flatMap fun si => if IsLive eject now si.1 then entries si.2 si.1 else []

theorem ringOf_cons (k : ℕ) (s : PoolServer) (ss : List PoolServer) :
    ringOf eject now entries k (s :: ss) =
      (if IsLive eject now s then entries k s else []) ++ ringOf eject now entries (k + 1) ss := rfl

/-- The array after a list was written to it. -/
def overwrite (ring : List (Option RingEntry)) (i : ℕ) (es : List RingEntry) :
    List (Option RingEntry) :=
  ring.take i ++ es.map some ++ ring.drop (i + es.length)

theorem length_overwrite {ring : List (Option RingEntry)} {i : ℕ} {es : List RingEntry}
    (h : i + es.length ≤ ring.length) : (overwrite ring i es).length = ring.length := by
  simp [overwrite]
  omega

theorem overwrite_nil (ring : List (Option RingEntry)) (i : ℕ) : overwrite ring i [] = ring := by
  simp [overwrite]

theorem overwrite_append {ring : List (Option RingEntry)} {i : ℕ} {es : List RingEntry}
    (h : i + es.length ≤ ring.length) (fs : List RingEntry) :
    overwrite (overwrite ring i es) (i + es.length) fs = overwrite ring i (es ++ fs) := by
  have hlen : (ring.take i ++ es.map some).length = i + es.length := by
    simp
    omega
  have hdrop : (ring.take i ++ es.map some ++ ring.drop (i + es.length)).drop
    (i + es.length + fs.length) =
      ring.drop (i + es.length + fs.length) := by
    rw [List.drop_append, List.drop_eq_nil_of_le (by omega), hlen, List.drop_drop, List.nil_append]
    congr 1
    omega
  rw [overwrite, overwrite, List.take_left' hlen, hdrop]
  simp [overwrite, Nat.add_assoc]

theorem overwrite_set {ring : List (Option RingEntry)} {i : ℕ} (h : i < ring.length)
    (e : RingEntry) :
    ring.set i (some e) = overwrite ring i [e] := by
  rw [List.set_eq_take_cons_drop _ h]
  simp [overwrite]

/-- Entries are written while there is room. -/
theorem writeEntries_eq (es : List RingEntry) {ring : List (Option RingEntry)} {i : ℕ}
    (hring : ring.length < 2 ^ 32) (hi : i ≤ ring.length) :
    writeEntries es (ring, i) =
      if i + es.length ≤ ring.length then some (overwrite ring i es, i + es.length) else none := by
  induction es generalizing ring i with
  | nil => simp [writeEntries, hi, overwrite_nil]
  | cons e es ih =>
    rw [writeEntries]
    by_cases hlt : i < ring.length
    · have hone : i + [e].length ≤ ring.length := hlt
      have hlen : (overwrite ring i [e]).length = ring.length := length_overwrite hone
      have happ := overwrite_append hone es
      rw [if_pos hlt, overwrite_set hlt, Nat.mod_eq_of_lt (by omega),
        ih (by rw [hlen]; exact hring) (by rw [hlen]; exact hlt), hlen]
      simp only [List.length_singleton, List.singleton_append] at happ
      rw [happ, List.length_cons, Nat.add_right_comm, Nat.add_assoc i]
    · rw [if_neg hlt, if_neg (by rw [List.length_cons]; omega)]

/-- **The second loop** writes the ring, if there is room. -/
theorem place_eq (eject : Bool) (now : ℤ) (entries : ℕ → PoolServer → List RingEntry)
    (ss : List PoolServer) (k : ℕ) {ring : List (Option RingEntry)} {i : ℕ}
    (hring : ring.length < 2 ^ 32) (hi : i ≤ ring.length) :
    placeServers eject now entries k ss (ring, i) =
      if i + (ringOf eject now entries k ss).length ≤ ring.length then
        some (overwrite ring i (ringOf eject now entries k ss),
          i + (ringOf eject now entries k ss).length)
      else none := by
  induction ss generalizing k ring i with
  | nil => simp [placeServers, ringOf, hi, overwrite_nil]
  | cons s ss ih =>
    rw [placeServers, ringOf_cons]
    by_cases hs : IsLive eject now s = true
    · have hskip : ¬(eject = true ∧ s.nextRetry > now) := by
        intro h
        rw [live_eq_false_iff.mpr h] at hs
        cases hs
      rw [if_neg hskip, if_pos hs, writeEntries_eq _ hring hi, List.length_append]
      by_cases hfit : i + (entries k s).length ≤ ring.length
      · have hlen := length_overwrite hfit
        rw [if_pos hfit]
        simp only
        rw [ih (k + 1) (by rw [hlen]; exact hring) (by rw [hlen]; exact hfit), hlen,
          overwrite_append hfit, Nat.add_assoc]
      · rw [if_neg hfit, if_neg (by omega)]
    · have hskip : eject = true ∧ s.nextRetry > now :=
        live_eq_false_iff.mp (Bool.eq_false_iff.mpr hs)
      rw [if_pos hskip, if_neg hs, ih (k + 1) hring hi]
      rfl

end Placing

/-! ### Modula and random -/

section Listing

variable {eject : Bool} {now : ℤ} {d : DistType}

/-- How often a live server is listed. -/
def DistType.copies (s : PoolServer) : DistType → ℕ
  | modula => s.weight
  | random => 1
  | ketama => 0

/-- **The ring of modula and random**: each live server, in the order of the servers, by its
index. -/
def DistType.ring (d : DistType) (eject : Bool) (now : ℤ) (ss : List PoolServer) : List RingEntry :=
  ringOf eject now (fun i s => List.replicate (d.copies s) ⟨i, 0⟩) 0 ss

theorem DistType.entries_eq (hd : d ≠ .ketama) (env : Hashing) (total live i : ℕ) (s : PoolServer) :
    d.entries env total live i s = List.replicate (d.copies s) ⟨i, 0⟩ := by
  cases d with
  | ketama => exact absurd rfl hd
  | modula | random => rfl

theorem copies_settle (s : PoolServer) : d.copies (settle eject now s) = d.copies s := by
  cases d with
  | ketama | random => rfl
  | modula => exact settle_weight s

/-- The number of entries of all servers. -/
def DistType.size (d : DistType) (ss : List PoolServer) : ℕ := (ss.map fun s => d.copies s).sum

theorem length_ringOf (k : ℕ) (ss : List PoolServer) :
    (ringOf eject now (fun i s => List.replicate (d.copies s) ⟨i, 0⟩) k ss).length =
      d.size (ss.filter (IsLive eject now)) := by
  induction ss generalizing k with
  | nil => rfl
  | cons s ss ih =>
    rw [ringOf_cons, List.length_append, ih (k + 1), List.filter_cons]
    split <;> simp [DistType.size]

theorem length_ring (ss : List PoolServer) :
    (d.ring eject now ss).length = d.size (ss.filter (IsLive eject now)) := length_ringOf 0 ss

/-- The live servers have no more entries than all servers. -/
theorem length_ring_le (ss : List PoolServer) : (d.ring eject now ss).length ≤ d.size ss := by
  rw [length_ring]
  exact (List.filter_sublist.map _).sum_le_sum (fun _ _ => Nat.zero_le _)

theorem ringOf_settle (hnow : 0 ≤ now) (k : ℕ) (ss : List PoolServer) :
    ringOf eject now (fun i s => List.replicate (d.copies s) ⟨i, 0⟩) k (ss.map (settle eject now)) =
      ringOf eject now (fun i s => List.replicate (d.copies s) ⟨i, 0⟩) k ss := by
  induction ss generalizing k with
  | nil => rfl
  | cons s ss ih =>
      rw [List.map_cons, ringOf_cons, ringOf_cons, ih, live_settle hnow, copies_settle]

/-- The indexes that are listed are those of live servers. -/
theorem mem_ring {e : RingEntry} {ss : List PoolServer} (he : e ∈ d.ring eject now ss) :
    ∃ s, ss[e.index]? = some s ∧ IsLive eject now s = true := by
  obtain ⟨⟨s, i⟩, hmem, he⟩ := List.mem_flatMap.mp he
  split at he
  · next hlive =>
    rw [(List.mem_replicate.mp he).2]
    exact ⟨s, by simpa using List.mem_zipIdx_iff_getElem?.mp hmem, hlive⟩
  · cases he

/-- Every live server that has copies is listed. -/
theorem mem_ring_of_live {ss : List PoolServer} {i : ℕ} {s : PoolServer} (hs : ss[i]? = some s)
    (hlive : IsLive eject now s = true) (hpos : 0 < d.copies s) : ⟨i, 0⟩ ∈ d.ring eject now ss := by
  refine List.mem_flatMap.mpr ⟨(s, i), List.mem_zipIdx_iff_getElem?.mpr (by simpa using hs), ?_⟩
  rw [if_pos hlive]
  exact List.mem_replicate.mpr ⟨hpos.ne', rfl⟩

/-- What the size of the array is compared with is the number of entries. -/
theorem needed_eq (hd : d ≠ .ketama) (hnow : 0 ≤ now) {ss : List PoolServer}
    (hlt : (d.ring eject now ss).length < 2 ^ 32) :
    d.needed (scanServers eject now ss) = (d.ring eject now ss).length := by
  obtain ⟨-, hlive, htotal⟩ := scan_eq eject hnow ss
  rw [length_ring] at hlt ⊢
  cases d with
  | ketama => exact absurd rfl hd
  | modula =>
    change (scanServers eject now ss).totalWeight = _
    rw [htotal]
    exact Nat.mod_eq_of_lt hlt
  | random =>
    change (scanServers eject now ss).nliveServer = _
    rw [hlive, List.countP_eq_length_filter]
    simp [DistType.size, DistType.copies]

end Listing

/-- The array is as large as `nserver_continuum` says. -/
structure Sized (p : ServerPool) : Prop where
  length : p.continuum.length = p.nserverContinuum
  lt : p.nserverContinuum < 2 ^ 32

/-- **What a rebuild does** to a pool with the distribution modula or random. -/
structure Rebuilt (p : ServerPool) (now : ℤ) (p' : ServerPool) : Prop where
  server : p'.server = p.server.map (settle p.autoEjectHosts now)
  nextRebuild : p'.nextRebuild = (scanServers p.autoEjectHosts now p.server).nextRebuild
  nliveServer : p'.nliveServer = p.server.countP (IsLive p.autoEjectHosts now)
  distType : p'.distType = p.distType
  autoEjectHosts : p'.autoEjectHosts = p.autoEjectHosts
  serverRetryTimeout : p'.serverRetryTimeout = p.serverRetryTimeout
  serverFailureLimit : p'.serverFailureLimit = p.serverFailureLimit
  sized : Sized p'
  le : p.nserverContinuum ≤ p'.nserverContinuum
  dead : p'.nliveServer = 0 → p'.continuum = p.continuum ∧ p'.ncontinuum = p.ncontinuum
  live : p'.nliveServer ≠ 0 →
    p'.ncontinuum = (p.distType.ring p.autoEjectHosts now p.server).length ∧
      p'.continuum.take p'.ncontinuum = (p.distType.ring p.autoEjectHosts now p.server).map some

section Rebuilding

variable {env : Hashing} {p : ServerPool} {sys : Sys}

/-- The second half of a rebuild, if there is room. -/
theorem rebuild_eq (hs : Sized p) (hd : p.distType ≠ .ketama) (total : ℕ) (now : ℤ)
    (hfit : (p.distType.ring p.autoEjectHosts now p.server).length ≤ p.nserverContinuum) :
    rebuild env p total now = some (.ok,
      { p with
        continuum := overwrite p.continuum 0 (p.distType.ring p.autoEjectHosts now p.server)
        ncontinuum := (p.distType.ring p.autoEjectHosts now p.server).length }) := by
  have hentries : (fun i s => p.distType.entries env total p.nliveServer i s) =
      fun i s => List.replicate (p.distType.copies s) ⟨i, 0⟩ := by
    funext i s
    exact DistType.entries_eq hd env total _ i s
  have hfinish (ring : List (Option RingEntry)) (n : ℕ) : p.distType.finish env ring n = ring := by
    cases hk : p.distType with
    | ketama => exact absurd hk hd
    | modula | random => rfl
  rw [rebuild, hentries, place_eq _ _ _ _ _ (hs.length.symm ▸ hs.lt) (Nat.zero_le _), Nat.zero_add,
    ← DistType.ring,
    if_pos (hs.length.symm ▸ hfit)]
  simp only [hfinish]

/-- If the second half gives a pool, there was room. -/
theorem le_of_rebuild {total : ℕ} {now : ℤ} {m : RStatus × ServerPool}
    (h : rebuild env p total now = some m) (hs : Sized p) (hd : p.distType ≠ .ketama) :
    (p.distType.ring p.autoEjectHosts now p.server).length ≤ p.nserverContinuum := by
  by_contra hlt
  have hentries : (fun i s => p.distType.entries env total p.nliveServer i s) =
      fun i s => List.replicate (p.distType.copies s) ⟨i, 0⟩ := by
    funext i s
    exact DistType.entries_eq hd env total _ i s
  rw [rebuild, hentries, place_eq _ _ _ _ _ (hs.length.symm ▸ hs.lt) (Nat.zero_le _), Nat.zero_add,
    ← DistType.ring,
    if_neg (hs.length.symm ▸ hlt)] at h
  cases h

theorem length_ncRealloc (ring : List (Option RingEntry)) (n : ℕ) :
    (ncRealloc ring n).length = n := by
  simp [ncRealloc]
  omega

/-- **A rebuild succeeds** if the entries fit, or the array can be enlarged. -/
theorem serverPoolRun_rebuilt (env : Hashing) (hd : p.distType ≠ .ketama) (hs : Sized p)
    (hnow : 0 ≤ sys.now)
    (hfit : (p.distType.ring p.autoEjectHosts sys.now p.server).length ≤ p.nserverContinuum ∨
      sys.alloc = true ∧
        (p.distType.ring p.autoEjectHosts sys.now p.server).length + continuumAddition < 2 ^ 32) :
    ∃ p', serverPoolRun env p sys = some (.ok, p') ∧ Rebuilt p sys.now p' := by
  obtain ⟨hserver, hlive, -⟩ := scan_eq p.autoEjectHosts hnow p.server
  have hlt : (p.distType.ring p.autoEjectHosts sys.now p.server).length < 2 ^ 32 := by
    rcases hfit with h | ⟨-, h⟩
    · exact h.trans_lt hs.lt
    · omega
  have hneed := needed_eq hd hnow hlt
  have hring : p.distType.ring p.autoEjectHosts sys.now
    (p.server.map (settle p.autoEjectHosts sys.now)) =
      p.distType.ring p.autoEjectHosts sys.now p.server := ringOf_settle hnow 0 _
  rw [serverPoolRun, if_neg (not_lt.mpr hnow)]
  simp only [hserver, hlive, hneed]
  split
  · next hzero =>
    exact ⟨_, rfl, ⟨rfl, rfl, rfl, rfl, rfl, rfl, rfl, ⟨hs.length, hs.lt⟩, le_refl _, fun _ =>
      ⟨rfl, rfl⟩,
      fun h => absurd hzero h⟩⟩
  · next hpos =>
    split
    · next hgt =>
      obtain ⟨halloc, hroom⟩ := hfit.resolve_left (not_le.mpr hgt)
      have hpoints : p.distType.pointsPerServer = 1 := by
        cases hk : p.distType with
        | ketama => exact absurd hk hd
        | modula | random => rfl
      rw [if_pos halloc, hpoints, Nat.mul_one, Nat.mod_mod, Nat.mod_eq_of_lt hroom]
      have hsized : Sized
          { p with
            server := p.server.map (settle p.autoEjectHosts sys.now)
            nextRebuild := (scanServers p.autoEjectHosts sys.now p.server).nextRebuild
            nliveServer := p.server.countP (IsLive p.autoEjectHosts sys.now)
            continuum := ncRealloc p.continuum
              ((p.distType.ring p.autoEjectHosts sys.now p.server).length + continuumAddition)
            nserverContinuum :=
              (p.distType.ring p.autoEjectHosts sys.now p.server).length + continuumAddition } :=
        ⟨length_ncRealloc _ _, hroom⟩
      rw [rebuild_eq hsized hd _ _ (by simp only [hring]; exact Nat.le_add_right _ _)]
      simp only [hring]
      refine ⟨_, rfl, ⟨rfl, rfl, rfl, rfl, rfl, rfl, rfl, ⟨?_, hroom⟩, ?_, fun h => absurd h hpos,
        fun _ => ⟨rfl, ?_⟩⟩⟩
      · refine (length_overwrite ?_).trans (length_ncRealloc _ _)
        rw [length_ncRealloc]
        omega
      · exact (le_of_lt hgt).trans (Nat.le_add_right _ _)
      · simp [overwrite]
    · next hle =>
      have hsized : Sized
          { p with
            server := p.server.map (settle p.autoEjectHosts sys.now)
            nextRebuild := (scanServers p.autoEjectHosts sys.now p.server).nextRebuild
            nliveServer := p.server.countP (IsLive p.autoEjectHosts sys.now) } := ⟨hs.length, hs.lt⟩
      rw [rebuild_eq hsized hd _ _ (by simp only [hring]; exact not_lt.mp hle)]
      simp only [hring]
      refine ⟨_, rfl,
        ⟨rfl, rfl, rfl, rfl, rfl, rfl, rfl, ⟨?_, hs.lt⟩, le_refl _, fun h => absurd h hpos,
        fun _ => ⟨rfl, ?_⟩⟩⟩
      · refine (length_overwrite ?_).trans hs.length
        rw [Nat.zero_add, hs.length]
        exact not_lt.mp hle
      · simp [overwrite]

end Rebuilding

/-! ### Histories -/

/-- What every step keeps, a run keeps. -/
theorem foldlM_preserves {α β : Type} {f : β → α → Option β} (P : β → Prop)
    (hstep : ∀ b x b', P b → f b x = some b' → P b') (xs : List α) {b b' : β} (hb : P b)
    (h : xs.foldlM f b = some b') : P b' := by
  induction xs generalizing b with
  | nil =>
    cases h
    exact hb
  | cons x xs ih =>
    rw [List.foldlM_cons] at h
    obtain ⟨c, hc, h⟩ := Option.bind_eq_some_iff.mp h
    exact ih (hstep b x c hb hc) h

/-- What every step gives and keeps, a run gives and keeps. -/
theorem foldlM_keeps {α β : Type} {f : β → α → Option β} (P : β → Prop) (xs : List α)
    (hstep : ∀ b x, P b → x ∈ xs → ∃ b', f b x = some b' ∧ P b') {b : β} (hb : P b) :
    ∃ b', xs.foldlM f b = some b' ∧ P b' := by
  induction xs generalizing b with
  | nil => exact ⟨b, rfl, hb⟩
  | cons x xs ih =>
    obtain ⟨c, hc, hPc⟩ := hstep b x hb (by simp)
    obtain ⟨b', hb', hPb'⟩ := ih (fun c y hc hy => hstep c y hc (by simp [hy])) hPc
    exact ⟨b', by rw [List.foldlM_cons, hc]; exact hb', hPb'⟩

/-- A step in the history of a ring: the servers get new times at which they may be tried, whatever
the reason, or the ring is rebuilt. -/
inductive RingStep where
  | retry (next : ℕ → ℤ)
  | run (sys : Sys)

def ServerPool.ringStep (env : Hashing) (p : ServerPool) : RingStep → Option ServerPool
  | .retry next => some
      { p with server := p.server.mapIdx fun i s => { s with nextRetry := next i } }
  | .run sys => (serverPoolRun env p sys).map Prod.snd

def ServerPool.ringRun (env : Hashing) (p : ServerPool) (steps : List RingStep) :
    Option ServerPool :=
  steps.foldlM (ServerPool.ringStep env) p

/-- The ring was not built yet, as `conf_pool_each_transform` leaves it. -/
structure Fresh (p : ServerPool) : Prop where
  continuum : p.continuum = []
  ncontinuum : p.ncontinuum = 0
  nserverContinuum : p.nserverContinuum = 0

/-- What every step keeps: the size of the array is known, and the servers have the weights that
were configured. -/
structure Roomy (p₀ p : ServerPool) : Prop where
  sized : Sized p
  distType : p.distType = p₀.distType
  autoEjectHosts : p.autoEjectHosts = p₀.autoEjectHosts
  weights : p.server.map PoolServer.weight = p₀.server.map PoolServer.weight

/-- There is an entry for every hash, and it names a server. -/
structure Dispatches (p : ServerPool) : Prop where
  pos : 0 < p.ncontinuum
  entry : ∀ i < p.ncontinuum, ∃ e, p.continuum[i]? = some (some e) ∧ e.index < p.server.length

section Histories

variable {env : Hashing} {p₀ p p' : ServerPool} {sys : Sys}

theorem size_congr {d : DistType} {ss ts : List PoolServer}
    (h : ss.map PoolServer.weight = ts.map PoolServer.weight) : d.size ss = d.size ts := by
  cases d with
  | ketama => simp [DistType.size, DistType.copies]
  | modula => exact congrArg List.sum h
  | random =>
    have hlen := congrArg List.length h
    simp only [List.length_map] at hlen
    simp [DistType.size, DistType.copies, hlen]

/-- With positive weights the total weight bounds the number of entries. -/
theorem size_le_weight {d : DistType} {ss : List PoolServer} (hpos : ∀ s ∈ ss, 0 < s.weight) :
    d.size ss ≤ (ss.map PoolServer.weight).sum := by
  refine List.sum_le_sum fun s hs => ?_
  cases d with
  | ketama => exact Nat.zero_le _
  | modula => exact le_refl _
  | random => exact hpos s hs

theorem Fresh.roomy (h : Fresh p₀) : Roomy p₀ p₀ where
  sized := ⟨by rw [h.continuum, h.nserverContinuum]; rfl, by rw [h.nserverContinuum]; norm_num⟩
  distType := rfl
  autoEjectHosts := rfl
  weights := rfl

theorem Rebuilt.roomy {now : ℤ} (hr : Rebuilt p now p') (h : Roomy p₀ p) : Roomy p₀ p' where
  sized := hr.sized
  distType := hr.distType.trans h.distType
  autoEjectHosts := hr.autoEjectHosts.trans h.autoEjectHosts
  weights := by
    rw [hr.server, ← h.weights, List.map_map]
    exact List.map_congr_left fun s _ => settle_weight s

theorem Rebuilt.length {now : ℤ} (hr : Rebuilt p now p') : p'.server.length = p.server.length := by
  rw [hr.server, List.length_map]

/-- A rebuild with a live server makes a ring of which every entry names a server. -/
theorem Rebuilt.dispatches_of_live {now : ℤ} (hr : Rebuilt p now p')
    (hpos : ∀ s ∈ p.server, 0 < s.weight)
    (hd : p.distType ≠ .ketama) (hlive : p'.nliveServer ≠ 0) : Dispatches p' := by
  obtain ⟨hn, htake⟩ := hr.live hlive
  have hcount : 0 < p.server.countP (IsLive p.autoEjectHosts now) := by
    rw [← hr.nliveServer]
    exact Nat.pos_of_ne_zero hlive
  constructor
  · obtain ⟨s, hs, hlive⟩ := List.countP_pos_iff.mp hcount
    obtain ⟨i, hi⟩ := List.mem_iff_getElem?.mp hs
    have hcopies : 0 < p.distType.copies s := by
      cases hk : p.distType with
      | ketama => exact absurd hk hd
      | modula => exact hpos s hs
      | random => exact Nat.one_pos
    rw [hn]
    exact List.length_pos_of_mem (mem_ring_of_live hi hlive hcopies)
  · intro i hi
    have hget : (p'.continuum.take p'.ncontinuum)[i]? = p'.continuum[i]? :=
      List.getElem?_take_of_lt hi
    rw [htake, List.getElem?_map, List.getElem?_eq_getElem (hn ▸ hi), Option.map_some] at hget
    refine ⟨_, hget.symm, ?_⟩
    obtain ⟨s, hs, -⟩ := mem_ring (List.getElem_mem (hn ▸ hi))
    rw [hr.length]
    exact (List.getElem?_eq_some_iff.mp hs).1

theorem Rebuilt.dispatches {now : ℤ} (hr : Rebuilt p now p') (hpos : ∀ s ∈ p.server, 0 < s.weight)
    (hd : p.distType ≠ .ketama) (h : Dispatches p) : Dispatches p' := by
  by_cases hlive : p'.nliveServer = 0
  · obtain ⟨hring, hn⟩ := hr.dead hlive
    exact ⟨hn ▸ h.pos, by rw [hring, hn, hr.length]; exact h.entry⟩
  · exact hr.dispatches_of_live hpos hd hlive

/-- **There is always a server for a key.** -/
theorem Dispatches.idx (h : Dispatches p) (hd : p.distType ≠ .ketama) (env : Hashing) (rnd : ℕ)
    (key : List Byte) : ∃ i < p.server.length, serverPoolIdx env p rnd key = some i := by
  have hmodula (hash : ℕ) : ∃ i < p.server.length,
    modulaDispatch p.continuum p.ncontinuum hash = some i := by
    obtain ⟨e, he, hlt⟩ := h.entry (hash % p.ncontinuum) (Nat.mod_lt _ h.pos)
    refine ⟨e.index, hlt, ?_⟩
    rw [modulaDispatch, if_neg h.pos.ne', he]
  cases hk : p.distType with
  | ketama => exact absurd hk hd
  | modula =>
    simp only [serverPoolIdx, hk]
    exact hmodula _
  | random =>
    simp only [serverPoolIdx, hk]
    exact hmodula rnd

end Histories

section Contents

variable {env : Hashing} {p₀ p p' : ServerPool} {sys : Sys}

/-- What is assumed of the configuration. -/
structure Weighted (p : ServerPool) : Prop where
  distType : p.distType ≠ .ketama
  pos : ∀ s ∈ p.server, 0 < s.weight
  sum : (p.server.map PoolServer.weight).sum < 2 ^ 32 - 10

theorem Roomy.weighted (h : Roomy p₀ p) (hw : Weighted p₀) : Weighted p where
  distType := h.distType ▸ hw.distType
  pos s hs := by
    have hmem : s.weight ∈ p₀.server.map PoolServer.weight := h.weights ▸ List.mem_map_of_mem hs
    obtain ⟨t, ht, heq⟩ := List.mem_map.mp hmem
    exact heq ▸ hw.pos t ht
  sum := h.weights.symm ▸ hw.sum

/-- A rebuild never writes behind the end. -/
theorem Roomy.run (env : Hashing) (h : Roomy p₀ p) (hw : Weighted p₀) (hnow : 0 ≤ sys.now)
    (halloc : sys.alloc = true) :
    ∃ p', serverPoolRun env p sys = some (.ok, p') ∧ Rebuilt p sys.now p' := by
  have hp := h.weighted hw
  refine serverPoolRun_rebuilt env hp.distType h.sized hnow (.inr ⟨halloc, ?_⟩)
  calc (p.distType.ring p.autoEjectHosts sys.now p.server).length + continuumAddition
      ≤ p.distType.size p.server + continuumAddition := Nat.add_le_add_right (length_ring_le _) _
    _ ≤ (p.server.map PoolServer.weight).sum + continuumAddition :=
        Nat.add_le_add_right (size_le_weight hp.pos) _
    _ < 2 ^ 32 := by
        have := hp.sum
        unfold continuumAddition
        omega

/-- **A step of a history** succeeds; it keeps what is known of the pool and, once there is one, a
ring that names a server for every hash. -/
theorem Roomy.step (env : Hashing) (h : Roomy p₀ p) (hw : Weighted p₀) (step : RingStep)
    (halloc : ∀ sys, step = .run sys → sys.alloc = true) :
    ∃ p', p.ringStep env step = some p' ∧ Roomy p₀ p' ∧ (Dispatches p → Dispatches p') := by
  cases step with
  | retry =>
    refine ⟨_, rfl, ⟨⟨h.sized.length, h.sized.lt⟩, h.distType, h.autoEjectHosts, ?_⟩, fun hd =>
      ⟨hd.pos, ?_⟩⟩
    · rw [← h.weights]
      refine List.ext_getElem? fun i => ?_
      simp [Function.comp_def]
    · simpa using hd.entry
  | run sys =>
    by_cases hnow : sys.now < 0
    · refine ⟨p, ?_, h, id⟩
      rw [ServerPool.ringStep, serverPoolRun, if_pos hnow]
      rfl
    · obtain ⟨p', hrun, hr⟩ := h.run env hw (not_lt.mp hnow) (halloc sys rfl)
      have hp := h.weighted hw
      exact ⟨p', by rw [ServerPool.ringStep, hrun]; rfl, hr.roomy h,
        hr.dispatches hp.pos hp.distType⟩

theorem Roomy.ringRun (env : Hashing) (hw : Weighted p₀) (steps : List RingStep)
    (halloc : ∀ sys, .run sys ∈ steps → sys.alloc = true) (h : Roomy p₀ p) :
    ∃ p', p.ringRun env steps = some p' ∧ Roomy p₀ p' ∧ (Dispatches p → Dispatches p') := by
  refine foldlM_keeps (fun q => Roomy p₀ q ∧ (Dispatches p → Dispatches q)) steps ?_ ⟨h, id⟩
  rintro q step ⟨hq, hdisp⟩ hstep
  obtain ⟨q', hq', hroomy, hdisp'⟩ := hq.step env hw step fun sys hs => halloc sys (hs ▸ hstep)
  exact ⟨q', hq', hroomy, hdisp' ∘ hdisp⟩

/-- The first rebuild, with all servers live. -/
theorem Rebuilt.dispatches_init {now : ℤ} (hr : Rebuilt p now p') (hw : Weighted p)
    (hne : p.server ≠ [])
    (hzero : ∀ s ∈ p.server, s.nextRetry = 0) (hnow : 0 ≤ now) : Dispatches p' := by
  refine hr.dispatches_of_live hw.pos hw.distType ?_
  rw [hr.nliveServer]
  obtain ⟨s, hs⟩ := List.exists_mem_of_ne_nil _ hne
  have hlive : IsLive p.autoEjectHosts now s = true := by simp [IsLive, hzero s hs, hnow]
  exact (List.countP_pos_iff.mpr ⟨s, hs, hlive⟩).ne'

/-- `server_pool_update` leaves a ring that names a server for every hash. -/
theorem Roomy.update (h : Roomy p₀ p) (hw : Weighted p₀) (hd : Dispatches p) {now : ℤ}
    (halloc : sys.alloc = true) (hup : serverPoolUpdate env p now sys = some (.ok, p')) :
    Dispatches p' ∧ p'.distType ≠ .ketama := by
  have hp := h.weighted hw
  have hsame (heq : some (RStatus.ok, p) = some (.ok, p')) : Dispatches p' ∧
    p'.distType ≠ .ketama := by
    cases heq
    exact ⟨hd, hp.distType⟩
  unfold serverPoolUpdate at hup
  split at hup
  · exact hsame hup
  split at hup
  · exact hsame hup
  split at hup
  · cases hup
  split at hup
  · split at hup
    · cases hup
    · exact hsame hup
  · by_cases hnow : sys.now < 0
    · rw [serverPoolRun, if_pos hnow] at hup
      cases hup
    · obtain ⟨q, hrun, hr⟩ := h.run env hw (not_lt.mp hnow) halloc
      cases hrun.symm.trans hup
      exact ⟨hr.dispatches hp.pos hp.distType hd, hr.distType ▸ hp.distType⟩

end Contents

/-- **Contents and capacity of the ring.**  After any history of a pool with the distribution modula
or random nothing was written behind the end of the array; a further rebuild with a live server
lists the live servers, in their order and as often as they should be, and one without a live server
leaves the ring alone.  Once the pool was set up, with all servers live, whatever `server_pool_conn`
lets through gets the index of a server. -/
theorem ring_contents (env : Hashing) {p₀ : ServerPool} (fresh : Fresh p₀) (weighted : Weighted p₀)
    (steps : List RingStep) (alloc : ∀ sys, .run sys ∈ steps → sys.alloc = true) :
    ∃ p, p₀.ringRun env steps = some p ∧
      (∀ sys : Sys, sys.alloc = true → 0 ≤ sys.now → ∃ p',
        serverPoolRun env p sys = some (.ok, p') ∧
        (p.server.any (IsLive p.autoEjectHosts sys.now) = true → 0 < p'.ncontinuum ∧
          p'.continuum.take p'.ncontinuum =
            (p.distType.ring p.autoEjectHosts sys.now p.server).map some) ∧
        (p.server.any (IsLive p.autoEjectHosts sys.now) = false →
          p'.continuum = p.continuum ∧ p'.ncontinuum = p.ncontinuum)) ∧
      (∀ sys₀ rest, steps = .run sys₀ :: rest → 0 ≤ sys₀.now → p₀.server ≠ [] →
        (∀ s ∈ p₀.server, s.nextRetry = 0) → ∀ now sys p', sys.alloc = true →
        serverPoolUpdate env p now sys = some (.ok, p') → ∀ rnd key,
          ∃ i < p'.server.length, serverPoolIdx env p' rnd key = some i) := by
  obtain ⟨p, hp, hroomy, -⟩ := Roomy.ringRun env weighted steps alloc fresh.roomy
  have hw := hroomy.weighted weighted
  refine ⟨p, hp, fun sys halloc hnow => ?_, ?_⟩
  · obtain ⟨p', hrun, hr⟩ := hroomy.run env weighted hnow halloc
    refine ⟨p', hrun, fun hany => ?_, fun hany => hr.dead ?_⟩
    · have hlive : p'.nliveServer ≠ 0 := by
        rw [hr.nliveServer]
        exact (List.countP_pos_iff.mpr (List.any_eq_true.mp hany)).ne'
      exact ⟨(hr.dispatches_of_live hw.pos hw.distType hlive).pos, (hr.live hlive).2⟩
    · rw [hr.nliveServer, List.countP_eq_zero]
      exact fun s hs => by simpa using List.any_eq_false.mp hany s hs
  · rintro sys₀ rest rfl hnow hne hzero now sys p' halloc hup rnd key
    obtain ⟨q, hrun, hr⟩ := fresh.roomy.run env weighted hnow (alloc sys₀ (by simp))
    obtain ⟨p₁, hp₁, -, hdisp⟩ := Roomy.ringRun env weighted rest
      (fun s hs => alloc s (by simp [hs])) (hr.roomy fresh.roomy)
    have heq : p₀.ringRun env (.run sys₀ :: rest) = some p₁ := by
      rw [ServerPool.ringRun, List.foldlM_cons, ServerPool.ringStep, hrun]
      exact hp₁
    cases hp.symm.trans heq
    obtain ⟨hd, hk⟩ := hroomy.update weighted
      (hdisp (hr.dispatches_init weighted hne hzero hnow)) halloc hup
    exact hd.idx hk env rnd key

/-- A pool of two servers, of which the second counts twice. -/
def pairPool : ServerPool := { server := [{ weight := 1 }, { weight := 2 }], distType := .modula }

/-- Every key has the hash of its length. -/
def lengthHashing : Hashing :=
  { keyHash := List.length, ketamaHash := fun _ _ _ => 0, ketamaHosts := fun _ _ _ => 0,
    qsort := id }

/-- The ring of the two servers while the first is dead. -/
theorem ring_contents_pair :
    ∃ p, pairPool.ringRun lengthHashing [.run ⟨1, true⟩, .retry fun i => if i = 0 then 9 else 0] =
      some p ∧
      ∃ p', serverPoolRun lengthHashing p ⟨5, true⟩ = some (.ok, p') ∧
        p'.continuum.take p'.ncontinuum = [some ⟨1, 0⟩, some ⟨1, 0⟩] := by
  obtain ⟨p, hp, hrun, -⟩ := ring_contents lengthHashing
    (show Fresh pairPool from ⟨rfl, rfl, rfl⟩)
    ⟨by decide, by decide, by decide⟩ [.run ⟨1, true⟩, .retry fun i => if i = 0 then 9 else 0]
    (by rintro sys hs; simp at hs; rw [hs])
  refine ⟨p, hp, ?_⟩
  obtain ⟨p', hp', hlive, -⟩ := hrun ⟨5, true⟩ rfl (by decide)
  refine ⟨p', hp', ?_⟩
  cases hp
  exact (hlive rfl).2

end CacheProxy
