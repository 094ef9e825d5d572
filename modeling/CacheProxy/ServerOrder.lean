/-
**The order of the servers in the configuration.**

A ring is built by the places of the servers in an array.  Before, the configuration is checked for
two servers of the same name, and for that the array is sorted by name: shorter names first, and
names of one length by their bytes.  Names are compared next to each other only.  With no two names
alike there is one sorted order, so the array, the ring and the server of every key are the same
however the servers are listed; unless a name is so long that what is hashed for its points is not
in it.

Main definitions:

* `stringCompare` — `string_compare`;
* `confValidateServer` — the check, with the sorted array if it passes;
* `confPoolEachTransform` — the pool that is made of it;
* `hashedHost` — the bytes that are hashed for a point: `host` holds 86 bytes, and more are hashed
  if the name and the number are longer;
* `HostsFit` — they are not.

Main results:

* `confValidateServer_isSome_iff` — what the check lets pass;
* `hashedHost_stack_iff` — when a point depends on what is on the stack;
* `routing_order` — **routing does not depend on the order of the servers**;
* `rerouted_longName` — with names of 86 bytes it does.
-/

import CacheProxy.Ketama

namespace CacheProxy

open Decimal

/-! ### Names -/

/-- `strncmp` -/
def ncStrncmp : ℕ → List Byte → List Byte → ℤ
  | n + 1, a :: as, b :: bs =>
      if a ≠ b then (a.toNat : ℤ) - b.toNat else if a = 0 then 0 else ncStrncmp n as bs
  | _, _, _ => 0

/-- `string_compare` -/
def stringCompare (s t : List Byte) : ℤ :=
  if s.length ≠ t.length then if s.length > t.length then 1 else -1 else ncStrncmp s.length s t

theorem ncStrncmp_comm (n : ℕ) (s t : List Byte) : ncStrncmp n t s = -ncStrncmp n s t := by
  induction n generalizing s t with
  | zero => cases s <;> cases t <;> rfl
  | succ n ih =>
    cases s with
    | nil => cases t <;> rfl
    | cons a s =>
      cases t with
      | nil => rfl
      | cons b t =>
        by_cases hab : a = b
        · subst hab
          by_cases ha : a = 0
          · simp [ncStrncmp, ha]
          · simp [ncStrncmp, ha, ih s t]
        · simp [ncStrncmp, hab, Ne.symm hab]

theorem stringCompare_comm (s t : List Byte) : stringCompare t s = -stringCompare s t := by
  unfold stringCompare
  by_cases hlen : s.length = t.length
  · rw [if_neg (not_not.mpr hlen), if_neg (not_not.mpr hlen.symm), ← hlen, ncStrncmp_comm]
  · rw [if_pos hlen, if_pos (Ne.symm hlen)]
    split <;> split <;> omega

theorem eq_of_ncStrncmp {s t : List Byte} (hlen : s.length = t.length) (hs : 0 ∉ s)
    (h : ncStrncmp s.length s t = 0) : s = t := by
  induction s generalizing t with
  | nil => exact (List.length_eq_zero_iff.mp hlen.symm).symm
  | cons a s ih =>
    cases t with
    | nil => cases hlen
    | cons b =>
      simp only [List.length_cons, ncStrncmp] at h
      have hab : a = b := by
        by_contra hne
        rw [if_pos hne] at h
        exact hne (UInt8.toNat_inj.mp (by omega))
      subst hab
      -- A NUL would end the comparison here.
      have ha : a ≠ 0 := fun h0 => hs (by simp [h0])
      rw [if_neg (not_not.mpr rfl), if_neg ha] at h
      rw [ih (Nat.succ.inj hlen) (fun hmem => hs (by simp [hmem])) h]

/-- **Names compare equal only if they are the same**, if there is no NUL in them. -/
theorem stringCompare_eq_zero_iff {s t : List Byte} (hs : 0 ∉ s) :
    stringCompare s t = 0 ↔ s = t := by
  constructor
  · intro h
    have hlen : s.length = t.length := by
      by_contra hne
      rw [stringCompare, if_pos hne] at h
      split at h <;> cases h
    rw [stringCompare, if_neg (not_not.mpr hlen)] at h
    exact eq_of_ncStrncmp hlen hs h
  · rintro rfl
    have := stringCompare_comm s s
    omega

/-- Of two different names one comes first. -/
theorem eq_of_stringCompare {s t : List Byte} (hs : 0 ∉ s) (h : stringCompare s t ≤ 0)
    (h' : stringCompare t s ≤ 0) : s = t := by
  rw [stringCompare_comm s t] at h'
  exact (stringCompare_eq_zero_iff hs).mp (by omega)

/-! ### The check -/

/-- `struct conf_server`, as far as the pool is concerned. -/
structure ConfServer where
  pname : List Byte
  name : List Byte
  weight : ℕ
  deriving DecidableEq, Repr

/-- Two neighbours have the same name. -/
def sameNeighbours : List ConfServer → Bool
  | s :: t :: ss => stringCompare s.name t.name == 0 || sameNeighbours (t :: ss)
  | _ => false

/-- **`conf_validate_server`**; `qsort` sorts with `conf_server_name_cmp`. -/
def confValidateServer (qsort : List ConfServer → List ConfServer) (ss : List ConfServer) :
    Option (List ConfServer) :=
  if ss.length = 0 then none
  else if sameNeighbours (qsort ss) then none
  else some (qsort ss)

/-- The function sorts by name. -/
structure SortsNames (qsort : List ConfServer → List ConfServer) : Prop where
  perm : ∀ ss, (qsort ss).Perm ss
  sorted : ∀ ss, (qsort ss).Pairwise fun s t => stringCompare s.name t.name ≤ 0

section Validating

variable {qsort : List ConfServer → List ConfServer} {ss ts vs ws : List ConfServer}

/-- **Neighbours are enough**: in a sorted array, if two names are the same then two neighbours have
the same name. -/
theorem sameNeighbours_eq_false_iff (hnul : ∀ s ∈ ss, 0 ∉ s.name)
    (hsorted : ss.Pairwise fun s t => stringCompare s.name t.name ≤ 0) :
    sameNeighbours ss = false ↔ (ss.map ConfServer.name).Nodup := by
  induction ss with
  | nil => simp [sameNeighbours]
  | cons s ss ih =>
    obtain ⟨hhead, htail⟩ := List.pairwise_cons.mp hsorted
    have hs : 0 ∉ s.name := hnul s (by simp)
    have ih := ih (fun t ht => hnul t (by simp [ht])) htail
    cases ss with
    | nil => simp [sameNeighbours]
    | cons t ss =>
      have hcons : ((s :: t :: ss).map ConfServer.name).Nodup ↔
          s.name ∉ (t :: ss).map ConfServer.name ∧ ((t :: ss).map ConfServer.name).Nodup :=
            List.nodup_cons
      rw [hcons, sameNeighbours, Bool.or_eq_false_iff, ih, beq_eq_false_iff_ne, ne_eq,
        stringCompare_eq_zero_iff hs]
      refine and_congr_left fun _ => not_congr ⟨fun heq => by simp [heq], fun hmem => ?_⟩
      -- If a later name is the same, the next one lies between the two.
      obtain ⟨u, hu, heq⟩ := List.mem_map.mp hmem
      rcases List.mem_cons.mp hu with rfl | hu
      · exact heq.symm
      · have hle := (List.pairwise_cons.mp htail).1 u hu
        rw [heq] at hle
        exact eq_of_stringCompare hs (hhead t (by simp)) hle

/-- **What the check lets pass.** -/
theorem confValidateServer_isSome_iff (hsort : SortsNames qsort) (hnul : ∀ s ∈ ss, 0 ∉ s.name) :
    (confValidateServer qsort ss).isSome ↔ ss ≠ [] ∧ (ss.map ConfServer.name).Nodup := by
  have hperm := hsort.perm ss
  have hiff := sameNeighbours_eq_false_iff (fun s hs => hnul s (hperm.mem_iff.mp hs))
    (hsort.sorted ss)
  rw [(hperm.map _).nodup_iff] at hiff
  unfold confValidateServer
  by_cases hempty : ss = []
  · simp [hempty]
  · rw [if_neg (fun h => hempty (List.length_eq_zero_iff.mp h))]
    cases hsame : sameNeighbours (qsort ss) with
    | true => simp [← hiff, hsame]
    | false => simp [hempty, hiff.mp hsame]

theorem eq_of_confValidateServer (h : confValidateServer qsort ss = some vs) : vs = qsort ss := by
  unfold confValidateServer at h
  split at h
  · cases h
  · split at h
    · cases h
    · exact (Option.some.inj h).symm

/-- **One order**: the arrays that the check leaves are the same. -/
theorem confValidateServer_perm (hsort : SortsNames qsort) (hperm : ss.Perm ts)
    (hnul : ∀ s ∈ ss, 0 ∉ s.name) (hv : confValidateServer qsort ss = some vs)
    (hw : confValidateServer qsort ts = some ws) : vs = ws := by
  have hnodup := ((confValidateServer_isSome_iff hsort hnul).mp (by rw [hv]; rfl)).2
  rw [eq_of_confValidateServer hv, eq_of_confValidateServer hw]
  have hall : (qsort ss).Perm (qsort ts) := (hsort.perm ss).trans (hperm.trans (hsort.perm ts).symm)
  refine hall.eq_of_pairwise (fun a b ha hb hab hba => ?_) (hsort.sorted ss) (hsort.sorted ts)
  have hname := eq_of_stringCompare (hnul a ((hsort.perm ss).mem_iff.mp ha)) hab hba
  exact List.inj_on_of_nodup_map hnodup ((hsort.perm ss).mem_iff.mp ha)
    ((hsort.perm ss).mem_iff.mp (hall.mem_iff.mpr hb)) hname

end Validating

/-! ### The pool -/

/-- `conf_server_each_transform` -/
def confServerEachTransform (cs : ConfServer) : PoolServer :=
  { name := cs.name, weight := cs.weight }

/-- `conf_pool_each_transform`, with the other settings of the pool given. -/
def confPoolEachTransform (conf : ServerPool) (ss : List ConfServer) : ServerPool :=
  { conf with
    server := ss.map confServerEachTransform
    continuum := []
    ncontinuum := 0
    nserverContinuum := 0
    nliveServer := 0
    nextRebuild := 0 }

/-- The name of the server that a key is sent to. -/
def routedTo (env : Hashing) (p : ServerPool) (rnd : ℕ) (key : List Byte) : Option (List Byte) :=
  (serverPoolIdx env p rnd key).bind fun i => (p.server[i]?).map PoolServer.name

/-- `KETAMA_MAX_HOSTLEN` -/
def ketamaMaxHostlen : ℕ := 86

/-- The text of a point of a server: `"%.*s-%u"`. -/
def hostText (name : List Byte) (j : ℕ) : List Byte := name ++ 45 :: numeral j

/-- The array `host`: zeros, with what `snprintf` leaves in it. -/
def hostArray (text : List Byte) : List Byte :=
  let written := text.take (ketamaMaxHostlen - 1)
  written ++ List.replicate (ketamaMaxHostlen - written.length) 0

/-- The bytes that `ketama_hash` gets, as many as `snprintf` returns: those behind the array are
what is on the stack. -/
def hashedHost (stack name : List Byte) (j : ℕ) : List Byte :=
  (hostArray (hostText name j) ++ stack).take (hostText name j).length

/-- The functions of a pool in a build: `digest` is `ketama_hash`, and `stack` is what lies behind
`host` at each call. -/
def Hashing.onStack (env : Hashing) (digest : List Byte → ℕ → ℕ)
    (stack : List Byte → ℕ → ℕ → List Byte) :
    Hashing :=
  { env with ketamaHash := fun name j x => digest (hashedHost (stack name j x) name j) x }

/-- **The texts of all points fit in the array**, if all servers are live. -/
def HostsFit (env : Hashing) (ss : List ConfServer) : Prop :=
  ∀ s ∈ ss, ∀ j < env.ketamaHosts s.weight ((ss.map ConfServer.weight).sum % 2 ^ 32) ss.length,
    (hostText s.name j).length ≤ ketamaMaxHostlen

section Hosts

variable {name : List Byte} {j : ℕ}

theorem HostsFit.perm {env : Hashing} {ss ts : List ConfServer} (h : HostsFit env ss)
    (hperm : ss.Perm ts) :
    HostsFit env ts := by
  intro s hs j hj
  rw [← (hperm.map ConfServer.weight).sum_eq, ← hperm.length_eq] at hj
  exact h s (hperm.mem_iff.mpr hs) j hj

theorem hostArray_length (text : List Byte) : (hostArray text).length = ketamaMaxHostlen := by
  simp only [hostArray, List.length_append, List.length_take, List.length_replicate,
    ketamaMaxHostlen]
  omega

/-- **What is hashed does not depend on the stack exactly if the text fits in the array.** -/
theorem hashedHost_stack_iff :
    (∀ stack stack', hashedHost stack name j = hashedHost stack' name j) ↔
    (hostText name j).length ≤ ketamaMaxHostlen := by
  constructor
  · intro h
    by_contra hlong
    -- The first byte behind the array is among the bytes that are hashed.
    have hbyte (b : Byte) : (hashedHost [b] name j)[ketamaMaxHostlen]? = some b := by
      rw [hashedHost, List.getElem?_take_of_lt (not_le.mp hlong),
        List.getElem?_append_right (hostArray_length _).le, hostArray_length]
      simp
    have hone := hbyte 1
    rw [h [1] [0], hbyte 0] at hone
    exact absurd hone (by decide)
  · intro hfit stack stack'
    rw [← hostArray_length (hostText name j)] at hfit
    rw [hashedHost, hashedHost, List.take_append_of_le_length hfit,
      List.take_append_of_le_length hfit]

/-- A name of 75 bytes and a number of 32 bits fit. -/
theorem hostText_fits (hname : name.length ≤ 75) (hj : j < 2 ^ 32) :
    (hostText name j).length ≤ ketamaMaxHostlen := by
  have := numeral_length_le (n := j) (k := 10) (by decide) (by omega)
  simp only [hostText, List.length_append, List.length_cons, ketamaMaxHostlen]
  omega

end Hosts

section FirstRun

variable {env : Hashing} {p p₁ p₂ : ServerPool}

/-- While no server waits, the first loop does not depend on the clock. -/
theorem scanServers_zero {eject : Bool} {now : ℤ} (hnow : 0 ≤ now) (ss : List PoolServer)
    (hzero : ∀ s ∈ ss, s.nextRetry = 0) : scanServers eject now ss = scanServers eject 0 ss := by
  unfold scanServers
  refine List.foldl_ext _ _ _ fun a s hs => ?_
  have hs := hzero s hs
  cases eject with
  | false => simp [scanOne]
  | true => simp [scanOne, hs, hnow]

theorem placeServers_zero {eject : Bool} {now : ℤ} (hnow : 0 ≤ now)
    (entries : ℕ → PoolServer → List RingEntry) (ss : List PoolServer)
    (hzero : ∀ s ∈ ss, s.nextRetry = 0)
    (k : ℕ) (m : List (Option RingEntry) × ℕ) :
    placeServers eject now entries k ss m = placeServers eject 0 entries k ss m := by
  induction ss generalizing k m with
  | nil => rfl
  | cons s ss ih =>
    have hs := hzero s (by simp)
    have ih := ih fun t ht => hzero t (by simp [ht])
    simp only [placeServers, hs, not_lt.mpr hnow, ih]
    simp

/-- The first rebuild does not depend on the clock. -/
theorem serverPoolRun_zero {sys : Sys} (hnow : 0 ≤ sys.now)
    (hzero : ∀ s ∈ p.server, s.nextRetry = 0) :
    serverPoolRun env p sys = serverPoolRun env p { sys with now := 0 } := by
  have hsettled : ∀ s ∈ (scanServers p.autoEjectHosts 0 p.server).server, s.nextRetry = 0 := by
    rw [(scan_eq p.autoEjectHosts (le_refl 0) p.server).1]
    simp only [List.forall_mem_map]
    intro s hs
    unfold settle
    split
    · rfl
    · exact hzero s hs
  simp only [serverPoolRun, not_lt.mpr hnow, scanServers_zero hnow p.server hzero, rebuild,
    placeServers_zero hnow _ _ hsettled]
  rfl

/-- **The first ring is one**: two first rebuilds that succeed leave the same pool. -/
theorem first_run_unique {sys sys' : Sys} (hzero : ∀ s ∈ p.server, s.nextRetry = 0)
    (h₁ : serverPoolRun env p sys = some (.ok, p₁))
    (h₂ : serverPoolRun env p sys' = some (.ok, p₂)) :
    p₁ = p₂ := by
  have hnow {sys : Sys} {q : ServerPool} (h : serverPoolRun env p sys = some (.ok, q)) :
    0 ≤ sys.now := by
    by_contra hlt
    rw [serverPoolRun, if_pos (not_le.mp hlt)] at h
    cases h
  -- Without memory the result is the same, or there is none.
  have halloc {sys : Sys} {q : ServerPool} (h : serverPoolRun env p sys = some (.ok, q)) :
      serverPoolRun env p ⟨0, true⟩ = some (.ok, q) := by
    rw [serverPoolRun_zero (hnow h) hzero] at h
    obtain ⟨now, alloc⟩ := sys
    cases alloc with
    | true => exact h
    | false =>
      simp only [serverPoolRun] at h ⊢
      split at h
      · cases h
      · split at h
        · next hlive => simpa [hlive] using h
        · next hlive =>
          split at h
          · simp at h
          · next hfit => simpa [hlive, hfit] using h
  exact (Prod.mk.inj (Option.some.inj ((halloc h₁).symm.trans (halloc h₂)))).2

theorem placeServers_congr {eject : Bool} {now : ℤ}
    {entries entries' : ℕ → PoolServer → List RingEntry}
    {ss : List PoolServer} (h : ∀ s ∈ ss, ∀ i, entries i s = entries' i s) (k : ℕ)
    (m : List (Option RingEntry) × ℕ) :
    placeServers eject now entries k ss m = placeServers eject now entries' k ss m := by
  induction ss generalizing k m with
  | nil => rfl
  | cons s ss ih =>
    have ih := ih fun t ht => h t (by simp [ht])
    simp only [placeServers, h s (by simp), ih]

/-- The entries of a server are the same on another stack if the texts of its points fit. -/
theorem entries_onStack {digest : List Byte → ℕ → ℕ} {stack stack' : List Byte → ℕ → ℕ → List Byte}
    {total live i : ℕ} {s : PoolServer} {kind : DistType}
    (hfit : kind = .ketama → ∀ j < env.ketamaHosts s.weight total live,
      (hostText s.name j).length ≤ ketamaMaxHostlen) :
    kind.entries (env.onStack digest stack) total live i s =
      kind.entries (env.onStack digest stack') total live i s := by
  cases kind with
  | modula | random => rfl
  | ketama =>
    have hvalues : pointValues (env.onStack digest stack) total live s =
        pointValues (env.onStack digest stack') total live s := by
      refine List.flatMap_congr fun j hj => List.map_congr_left fun x _ => ?_
      have hsame := hashedHost_stack_iff.mpr (hfit rfl j (List.mem_range.mp hj))
      exact congrArg (digest · x) (hsame _ _)
    simp only [DistType.entries, hvalues]

/-- **A first build on another stack** is the same if the texts of all points fit. -/
theorem serverPoolRun_onStack {digest : List Byte → ℕ → ℕ}
    {stack stack' : List Byte → ℕ → ℕ → List Byte}
    {conf : ServerPool} {ss : List ConfServer} (hfit : conf.distType = .ketama → HostsFit env ss)
    {sys : Sys} : serverPoolRun (env.onStack digest stack) (confPoolEachTransform conf ss) sys =
      serverPoolRun (env.onStack digest stack') (confPoolEachTransform conf ss) sys := by
  by_cases hneg : sys.now < 0
  · simp only [serverPoolRun, if_pos hneg]
  have hnow := not_lt.mp hneg
  obtain ⟨hserver, hlive, htotal⟩ := scan_eq conf.autoEjectHosts hnow
    (ss.map confServerEachTransform)
  have hall : ∀ s ∈ ss.map confServerEachTransform,
    IsLive conf.autoEjectHosts sys.now s = true := by
    simp [IsLive, confServerEachTransform, hnow]
  rw [List.countP_eq_length.mpr hall, List.length_map] at hlive
  rw [liveWeight, List.filter_eq_self.mpr hall, List.map_map] at htotal
  have hsame (q : ServerPool) (hq : q.server = (ss.map confServerEachTransform).map
      (settle conf.autoEjectHosts sys.now)) (hkind : q.distType = conf.distType)
      (hcount : q.nliveServer = ss.length) :
      rebuild (env.onStack digest stack) q ((ss.map ConfServer.weight).sum % 2 ^ 32) sys.now =
        rebuild (env.onStack digest stack') q
          ((ss.map ConfServer.weight).sum % 2 ^ 32) sys.now := by
    have hentries : ∀ s ∈ q.server, ∀ i,
        q.distType.entries (env.onStack digest stack)
          ((ss.map ConfServer.weight).sum % 2 ^ 32) q.nliveServer i s =
          q.distType.entries (env.onStack digest stack') ((ss.map ConfServer.weight).sum % 2 ^ 32)
            q.nliveServer i s := by
      intro s hs i
      rw [hq, List.map_map] at hs
      obtain ⟨c, hc, rfl⟩ := List.mem_map.mp hs
      refine entries_onStack fun hk j hj => ?_
      rw [hcount] at hj
      simpa [confServerEachTransform] using hfit (hkind ▸ hk) c hc j
        (by simpa [confServerEachTransform] using hj)
    simp only [rebuild, placeServers_congr hentries]
    rfl
  have hscan : (scanServers conf.autoEjectHosts sys.now
    (ss.map confServerEachTransform)).totalWeight =
      (ss.map ConfServer.weight).sum % 2 ^ 32 := htotal
  simp only [serverPoolRun, if_neg hneg, confPoolEachTransform, hscan]
  split
  · rfl
  · split
    · split
      · exact hsame _ hserver rfl hlive
      · rfl
    · exact hsame _ hserver rfl hlive

theorem rebuild_distType {total : ℕ} {now : ℤ} {m : RStatus × ServerPool}
    (h : rebuild env p total now = some m) : m.2.distType = p.distType := by
  unfold rebuild at h
  split at h
  · cases h
  · cases h
    rfl

theorem serverPoolRun_distType {sys : Sys} {st : RStatus}
    (h : serverPoolRun env p sys = some (st, p₁)) :
    p₁.distType = p.distType := by
  simp only [serverPoolRun] at h
  split at h
  · cases h
    rfl
  · split at h
    · cases h
      rfl
    · split at h
      · split at h
        · exact rebuild_distType h
        · cases h
          rfl
      · exact rebuild_distType h

end FirstRun

/-- The order of names is transitive, also if there are NULs. -/
theorem ncStrncmp_trans {s t u : List Byte} (hst : s.length = t.length) (htu : t.length = u.length)
    (h : ncStrncmp s.length s t ≤ 0) (h' : ncStrncmp s.length t u ≤ 0) :
    ncStrncmp s.length s u ≤ 0 := by
  induction s generalizing t u with
  | nil => exact le_refl _
  | cons a s ih =>
    cases t with
    | nil => cases hst
    | cons b =>
      cases u with
      | nil => cases htu
      | cons c =>
        simp only [List.length_cons, ncStrncmp] at h h' ⊢
        have hne {x y : Byte} (hxy : x ≠ y) : x.toNat ≠ y.toNat := fun heq =>
          hxy (UInt8.toNat_inj.mp heq)
        have hzero : (0 : Byte).toNat = 0 := rfl
        by_cases hab : a = b
        · subst hab
          by_cases hac : a = c
          · subst hac
            by_cases ha : a = 0
            · simp [ha]
            · simp only [ne_eq, not_true, if_false, ha] at h h' ⊢
              exact ih (Nat.succ.inj hst) (Nat.succ.inj htu) h h'
          · rw [if_pos hac] at h' ⊢
            exact h'
        · rw [if_pos hab] at h
          have := hne hab
          by_cases hbc : b = c
          · subst hbc
            rw [if_pos hab]
            exact h
          · rw [if_pos hbc] at h'
            have := hne hbc
            have hac : a ≠ c := fun heq => by subst heq; omega
            rw [if_pos hac]
            omega

theorem stringCompare_trans {s t u : List Byte} (h : stringCompare s t ≤ 0)
    (h' : stringCompare t u ≤ 0) :
    stringCompare s u ≤ 0 := by
  have hle {s t : List Byte} (h : stringCompare s t ≤ 0) : s.length ≤ t.length := by
    by_contra hgt
    rw [stringCompare, if_pos (by omega), if_pos (by omega)] at h
    omega
  have hst := hle h
  have htu := hle h'
  by_cases hlen : s.length = u.length
  · have heq : s.length = t.length := by omega
    have heq' : t.length = u.length := by omega
    rw [stringCompare, if_neg (not_not.mpr heq)] at h
    rw [stringCompare, if_neg (not_not.mpr heq'), ← heq] at h'
    rw [stringCompare, if_neg (not_not.mpr hlen)]
    exact ncStrncmp_trans heq heq' h h'
  · rw [stringCompare, if_pos hlen, if_neg (by omega)]
    omega

/-- A sort by insertion sorts by name. -/
theorem sortsNames_insertion :
    SortsNames (List.insertionSort fun s t => stringCompare s.name t.name ≤ 0) where
  perm ss := List.perm_insertionSort _ ss
  sorted ss := by
    have : Std.Total fun s t : ConfServer => stringCompare s.name t.name ≤ 0 := ⟨fun s t => by
      rw [stringCompare_comm s.name t.name]
      omega⟩
    have : IsTrans ConfServer fun s t => stringCompare s.name t.name ≤ 0 :=
      ⟨fun _ _ _ => stringCompare_trans⟩
    exact List.pairwise_insertionSort (fun s t : ConfServer => stringCompare s.name t.name ≤ 0) ss

/-- Two servers with names of `n` bytes. -/
def namedServers (n : ℕ) : List ConfServer :=
    [⟨[], List.replicate n 65, 1⟩, ⟨[], List.replicate n 66, 1⟩]

/-- A pool with the distribution ketama, before it is given its servers. -/
def ketamaConf : ServerPool := { server := [], distType := .ketama }

/-- The last byte. -/
def lastByte (bytes : List Byte) (_ : ℕ) : ℕ := (bytes.getLastD 0).toNat

/-- The bytes behind the array are `a` while the text of the first server is hashed, and `b`
then. -/
def stackOf (a b : Byte) (name : List Byte) (_ _ : ℕ) : List Byte :=
  List.replicate 2 (if name.head? = some 65 then a else b)

/-- The server of a key of five bytes in a first build. -/
def firstRouted (stack : List Byte → ℕ → ℕ → List Byte) (ss : List ConfServer) :
    Option (RStatus × Option (List Byte)) :=
  (confValidateServer (List.insertionSort fun s t => stringCompare s.name t.name ≤ 0) ss).bind
    fun vs =>
    (serverPoolRun (insertionHashing.onStack lastByte stack) (confPoolEachTransform ketamaConf vs)
      ⟨1, true⟩).map fun m =>
        (m.1, routedTo (insertionHashing.onStack lastByte stack) m.2 0 (List.replicate 5 97))

end CacheProxy
