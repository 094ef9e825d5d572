/-
**The report of the statistics.**

`stats_make_rsp` writes the sums of all metrics as one JSON object into a buffer that
`stats_create_buf` has made once.  The size of the buffer is an estimate: for every item the lengths
of its texts, twenty digits for a number, and eight bytes for what is around.  Objects are closed by
overwriting: a member has a comma and a blank behind it, and the two bytes become a brace and a
comma; behind an object there is only a comma, which becomes a brace, with a comma behind it.

Main definitions:

* `StatsSum`, `PoolSum`, `ServerSum` — what is reported;
* `statsBufSize` — the size that `stats_create_buf` computes;
* `StatsBuffer`, `statsAddString`, `statsAddNum`, `statsBeginNesting`, `statsEndNesting`,
  `statsMakeRsp` — the buffer and the functions that write;
* `report` — the value of the report.

Main results:

* `BufHolds.print`, `BufHolds.endNesting` — what one write does, and what it needs of the buffer;
* `stats_report` — **the report fits into the buffer and is JSON** for the names and values.
-/

import CacheProxy.JsonText
import CacheProxy.ProxyState

namespace CacheProxy

open Decimal JsonText

/-! ### What is reported -/

/-- `stats_pool_field_t` -/
inductive StatsPoolField where
  | clientEof | clientErr | clientConnections | serverEjects | forwardError | fragments
  deriving DecidableEq, Repr

/-- The fields in the order of `STATS_POOL_CODEC`. -/
def StatsPoolField.all : List StatsPoolField :=
  [.clientEof, .clientErr, .clientConnections, .serverEjects, .forwardError, .fragments]

/-- The name of a field. -/
def StatsPoolField.name : StatsPoolField → List Byte
  | .clientEof => str "client_eof"
  | .clientErr => str "client_err"
  | .clientConnections => str "client_connections"
  | .serverEjects => str "server_ejects"
  | .forwardError => str "forward_error"
  | .fragments => str "fragments"

/-- `stats_server_field_t` -/
inductive StatsServerField where
  | serverEof | serverErr | serverTimedout | serverConnections | serverEjectedAt | requests
  | requestBytes
  | responses | responseBytes | inQueue | inQueueBytes | outQueue | outQueueBytes
  deriving DecidableEq, Repr

/-- The fields in the order of `STATS_SERVER_CODEC`. -/
def StatsServerField.all : List StatsServerField :=
  [.serverEof, .serverErr, .serverTimedout, .serverConnections, .serverEjectedAt, .requests,
    .requestBytes,
    .responses, .responseBytes, .inQueue, .inQueueBytes, .outQueue, .outQueueBytes]

/-- The name of a field. -/
def StatsServerField.name : StatsServerField → List Byte
  | .serverEof => str "server_eof"
  | .serverErr => str "server_err"
  | .serverTimedout => str "server_timedout"
  | .serverConnections => str "server_connections"
  | .serverEjectedAt => str "server_ejected_at"
  | .requests => str "requests"
  | .requestBytes => str "request_bytes"
  | .responses => str "responses"
  | .responseBytes => str "response_bytes"
  | .inQueue => str "in_queue"
  | .inQueueBytes => str "in_queue_bytes"
  | .outQueue => str "out_queue"
  | .outQueueBytes => str "out_queue_bytes"

/-- The metrics of an array, each with its name; the values are `int64_t`. -/
abbrev Metrics := List (List Byte × BitVec 64)

/-- `struct stats_server` -/
structure ServerSum where
  name : List Byte
  value : StatsServerField → BitVec 64

/-- The array `metric` of a server. -/
def ServerSum.metric (s : ServerSum) : Metrics := StatsServerField.all.map fun f =>
    (f.name, s.value f)

/-- `struct stats_pool` -/
structure PoolSum where
  name : List Byte
  value : StatsPoolField → BitVec 64
  server : List ServerSum

/-- The array `metric` of a pool. -/
def PoolSum.metric (p : PoolSum) : Metrics := StatsPoolField.all.map fun f => (f.name, p.value f)

/-- The fields of `struct stats` that the report reads. -/
structure StatsSum where
  source : List Byte
  startTs : BitVec 64
  sum : List PoolSum

/-- What `time`, `getpid`, `conn_ntotal_conn` and `conn_ncurr_conn` return, as `int64_t`. -/
structure Sample where
  curTs : BitVec 64
  pid : BitVec 64
  ntotalConn : BitVec 64
  ncurrConn : BitVec 64

/-- `st->service` -/
def statsService : List Byte := str "nutcracker"

/-- `NC_VERSION_STRING` -/
def statsVersion : List Byte := str "0.4.1"

/-- The strings of the header. -/
def StatsSum.strings (st : StatsSum) : List (List Byte × List Byte) :=
  [(str "service", statsService), (str "source", st.source), (str "version", statsVersion)]

/-- The numbers of the header. -/
def StatsSum.numbers (st : StatsSum) (now : Sample) : Metrics :=
  [(str "uptime", now.curTs - st.startTs), (str "pid", now.pid), (str "timestamp", now.curTs),
    (str "total_connections", now.ntotalConn), (str "curr_connections", now.ncurrConn)]

/-! ### The size of the buffer -/

/-- What `stats_create_buf` adds for a string of the header: eight bytes around key and value. -/
def stringExtent (kv : List Byte × List Byte) : ℕ := kv.1.length + kv.2.length + 8

/-- What it adds for a number: twenty digits and eight bytes around. -/
def numberExtent (kv : List Byte × BitVec 64) : ℕ := kv.1.length + 20 + 8

/-- What it adds for an array of metrics. -/
def metricExtent (ms : Metrics) : ℕ := (ms.map numberExtent).sum

/-- What it adds for a server. -/
def serverExtent (s : ServerSum) : ℕ := s.name.length + 8 + metricExtent s.metric

/-- What it adds for a pool. -/
def poolExtent (p : PoolSum) : ℕ := p.name.length + 8 + metricExtent p.metric +
    (p.server.map serverExtent).sum

/-- The numbers of the header have keys of their own in `struct stats`. -/
def headerExtent (st : StatsSum) : ℕ :=
  (st.strings.map stringExtent).sum +
    ([str "uptime", str "pid", str "timestamp", str "total_connections", str "curr_connections"].map
      fun k => k.length + 20 + 8).sum

/-- `NC_ALIGN(size, NC_ALIGNMENT)` -/
def ncAlign (n : ℕ) : ℕ := (n + 7) / 8 * 8

/-- **The size that `stats_create_buf` computes.** -/
def statsBufSize (st : StatsSum) : ℕ := ncAlign
    (1 + headerExtent st + (st.sum.map poolExtent).sum + 2)

/-! ### Writing -/

/-- `struct stats_buffer`: the bytes up to `len`, and one more than the largest offset that was
written. -/
structure StatsBuffer where
  size : ℕ
  data : List Byte := []
  top : ℕ := 0
  deriving DecidableEq, Repr

/-- `nc_snprintf` at the end of the buffer, with the check behind it; the terminating zero is
written too. -/
def statsPrint (b : StatsBuffer) (text : List Byte) : Option StatsBuffer :=
  let room := sub64 (sub64 b.size b.data.length) 1
  if (text.length : ℤ) < toInt32 room then
    some { b with
      data := b.data ++ text
      top := max b.top (b.data.length + min (text.length + 1) room) }
  else none

/-- `stats_add_string` -/
def statsAddString (b : StatsBuffer) (kv : List Byte × List Byte) : Option StatsBuffer :=
  statsPrint b (34 :: kv.1 ++ [34, 58, 34] ++ kv.2 ++ [34, 44, 32])

/-- `stats_add_num` -/
def statsAddNum (b : StatsBuffer) (kv : List Byte × BitVec 64) : Option StatsBuffer :=
  statsPrint b (34 :: kv.1 ++ [34, 58] ++ decimal kv.2.toInt ++ [44, 32])

/-- `stats_copy_metric` -/
def statsCopyMetric (b : StatsBuffer) (ms : Metrics) : Option StatsBuffer := ms.foldlM statsAddNum b

/-- `stats_begin_nesting` -/
def statsBeginNesting (b : StatsBuffer) (key : List Byte) : Option StatsBuffer :=
  statsPrint b (34 :: key ++ [34, 58, 32, 123])

/-- **`stats_end_nesting`**: the last two bytes decide. -/
def statsEndNesting (b : StatsBuffer) : Option StatsBuffer :=
  match b.data.reverse with
  | _ :: x :: before =>
      if x = 44 then
        some { b with data := before.reverse ++ [125, 44], top := max b.top b.data.length }
      else if x = 125 then
        if b.data.length = b.size then none
        else
          some { b with
            data := before.reverse ++ [125, 125, 44], top := max b.top (b.data.length + 1) }
      -- `NOT_REACHED` does nothing
      else some b
  | _ => none

/-- `stats_add_header` -/
def statsAddHeader (st : StatsSum) (now : Sample) (b : StatsBuffer) : Option StatsBuffer :=
  (st.strings.foldlM statsAddString { b with data := [123], top := max b.top 1 }).bind fun b =>
    (st.numbers now).foldlM statsAddNum b

/-- `stats_add_footer` -/
def statsAddFooter (b : StatsBuffer) : Option StatsBuffer :=
  if b.data.length = b.size then none
  else some { b with data := b.data.dropLast ++ [125, 10], top := max b.top (b.data.length + 1) }

/-- The body of the loop over the servers in `stats_make_rsp`. -/
def statsAddServer (b : StatsBuffer) (s : ServerSum) : Option StatsBuffer :=
  (statsBeginNesting b s.name).bind fun b => (statsCopyMetric b s.metric).bind statsEndNesting

/-- The body of the loop over the pools in `stats_make_rsp`. -/
def statsAddPool (b : StatsBuffer) (p : PoolSum) : Option StatsBuffer :=
  (statsBeginNesting b p.name).bind fun b =>
    (statsCopyMetric b p.metric).bind fun b =>
      (p.server.foldlM statsAddServer b).bind statsEndNesting

/-- **`stats_make_rsp`** -/
def statsMakeRsp (st : StatsSum) (now : Sample) (b : StatsBuffer) : Option StatsBuffer :=
  (statsAddHeader st now b).bind fun b => (st.sum.foldlM statsAddPool b).bind statsAddFooter

/-! ### The value of the report -/

/-- The members for metrics. -/
def numMembers (ms : Metrics) : List (List Byte × Json) := ms.map fun kv => (kv.1, .num kv.2.toInt)

/-- The member for a server. -/
def serverMember (s : ServerSum) : List Byte × Json := (s.name, .obj (numMembers s.metric))

/-- The member for a pool. -/
def poolMember (p : PoolSum) : List Byte × Json :=
  (p.name, .obj (numMembers p.metric ++ p.server.map serverMember))

/-- **The value of the report.** -/
def report (st : StatsSum) (now : Sample) : Json :=
  .obj ((st.strings.map fun kv => (kv.1, .str kv.2)) ++ numMembers (st.numbers now) ++
    st.sum.map poolMember)

/-! ### Steps -/

/-- The buffer holds a text, of which `used` bytes were foreseen, and `slack` of them are left;
nothing was written behind its end. -/
structure BufHolds (size : ℕ) (b : StatsBuffer) (text : List Byte) (used slack : ℕ) : Prop where
  size_eq : b.size = size
  data_eq : b.data = text
  length_le : text.length + slack ≤ used
  top_le : b.top ≤ size

section Steps

variable {size used slack : ℕ} {b : StatsBuffer} {text : List Byte}

/-- **A write** that stays below what was foreseen for it. -/
theorem BufHolds.print (h : BufHolds size b text used slack) (hsize : size < 2 ^ 31) {t : List Byte}
    {cost extra : ℕ}
    (hcost : t.length + 1 + extra ≤ cost) (hfit : used + cost + 2 ≤ size) :
    ∃ b', statsPrint b t = some b' ∧ BufHolds size b' (text ++ t) (used + cost)
      (slack + extra) := by
  have hlen := h.length_le
  have hroom : sub64 (sub64 b.size b.data.length) 1 = size - text.length - 1 := by
    rw [h.size_eq, h.data_eq]
    simp only [sub64]
    omega
  have hint : toInt32 (size - text.length - 1) = ((size - text.length - 1 : ℕ) : ℤ) := by
    have hmod : (size - text.length - 1) % 2 ^ 32 = size - text.length - 1 :=
      Nat.mod_eq_of_lt (by omega)
    rw [toInt32, hmod, if_pos (by omega)]
  refine ⟨{ b with
    data := text ++ t
    top := max b.top (text.length + min (t.length + 1) (size - text.length - 1)) },
    ?_, h.size_eq, rfl, ?_, ?_⟩
  · simp only [statsPrint, hroom, hint]
    rw [if_pos (by omega), h.data_eq]
  · rw [List.length_append]
    omega
  · have htop := h.top_le
    exact max_le htop (by omega)

/-- **An object is closed**: the last separator gives way to a brace and a comma. -/
theorem BufHolds.endNesting {pre inner : List Byte} {ms : List (List Byte × Json)}
    (h : BufHolds size b (pre ++ inner) used (slack + 1)) (hfit : used + 2 ≤ size)
    (he : Entries inner ms)
    (hne : ms ≠ []) :
    ∃ b' body, statsEndNesting b = some b' ∧ Members body ms ∧
      BufHolds size b' (pre ++ (body ++ [125, 44])) used slack := by
  obtain ⟨body, hbody, rfl | ⟨x, rfl, rfl⟩⟩ := he.close hne
  · refine ⟨{ b with data := pre ++ body ++ [125, 44], top := max b.top b.data.length }, body, ?_,
      hbody, ?_⟩
    · have hrev : b.data.reverse = 32 :: 44 :: (pre ++ body).reverse := by
        rw [h.data_eq]
        simp
      simp only [statsEndNesting, hrev, if_true, List.reverse_reverse]
    · have hlen := h.length_le
      refine ⟨h.size_eq, by simp, ?_, ?_⟩
      · simp only [List.length_append, List.length_cons, List.length_nil] at hlen ⊢
        omega
      · rw [h.data_eq]
        exact max_le h.top_le (by omega)
  · have hlen := h.length_le
    have hfull : b.data.length ≠ b.size := by
      rw [h.data_eq, h.size_eq]
      omega
    refine ⟨{ b with data := pre ++ x ++ [125, 125, 44], top := max b.top (b.data.length + 1) },
      x ++ [125], ?_,
      hbody, ?_⟩
    · have hrev : b.data.reverse = 44 :: 125 :: (pre ++ x).reverse := by
        rw [h.data_eq]
        simp
      simp only [statsEndNesting, hrev, if_neg hfull, List.reverse_reverse]
      rfl
    · refine ⟨h.size_eq, by simp, ?_, ?_⟩
      · simp only [List.length_append, List.length_cons, List.length_nil] at hlen ⊢
        omega
      · rw [h.data_eq]
        exact max_le h.top_le (by omega)

/-- A string of the header. -/
theorem BufHolds.addString {pre inner : List Byte} {ms : List (List Byte × Json)}
    {kv : List Byte × List Byte}
    (h : BufHolds size b (pre ++ inner) used slack) (hsize : size < 2 ^ 31) (he : Entries inner ms)
    (hkey : Verbatim kv.1) (hval : Verbatim kv.2) (hfit : used + stringExtent kv + 2 ≤ size) :
    ∃ b' inner', statsAddString b kv = some b' ∧ Entries inner' (ms ++ [(kv.1, .str kv.2)]) ∧
      BufHolds size b' (pre ++ inner') (used + stringExtent kv) slack := by
  have hcost : (34 :: kv.1 ++ [34, 58, 34] ++ kv.2 ++ [34, 44, 32]).length + 1 + 0 ≤
    stringExtent kv := by
    simp only [stringExtent, List.length_append, List.length_cons, List.length_nil]
    omega
  obtain ⟨b', hb', hholds⟩ := h.print hsize hcost hfit
  refine ⟨b', _, hb', he.value hkey (.str hval), ?_⟩
  simpa [quoted] using hholds

/-- The digits of an `int64_t`. -/
theorem decimal_int64_length (v : BitVec 64) : (decimal v.toInt).length ≤ 20 := by
  have hlt := v.isLt
  have habs : v.toInt.natAbs < 10 ^ 19 := by
    rw [BitVec.toInt_eq_toNat_cond]
    split
    · omega
    · omega
  exact decimal_length_le (Nat.succ_pos 18) habs

/-- A number. -/
theorem BufHolds.addNum {pre inner : List Byte} {ms : List (List Byte × Json)}
    {kv : List Byte × BitVec 64}
    (h : BufHolds size b (pre ++ inner) used slack) (hsize : size < 2 ^ 31) (he : Entries inner ms)
    (hkey : Verbatim kv.1) (hfit : used + numberExtent kv + 2 ≤ size) :
    ∃ b' inner', statsAddNum b kv = some b' ∧ Entries inner' (ms ++ [(kv.1, .num kv.2.toInt)]) ∧
      BufHolds size b' (pre ++ inner') (used + numberExtent kv) slack := by
  have hdigits := decimal_int64_length kv.2
  have hcost : (34 :: kv.1 ++ [34, 58] ++ decimal kv.2.toInt ++ [44, 32]).length + 1 + 0 ≤
    numberExtent kv := by
    simp only [numberExtent, List.length_append, List.length_cons, List.length_nil]
    omega
  obtain ⟨b', hb', hholds⟩ := h.print hsize hcost hfit
  refine ⟨b', _, hb', he.value hkey (text_decimal _), ?_⟩
  simpa [quoted] using hholds

/-- The beginning of an object; two bytes of what was foreseen are kept for its end. -/
theorem BufHolds.beginNesting (h : BufHolds size b text used slack) (hsize : size < 2 ^ 31)
    {key : List Byte}
    (hfit : used + (key.length + 8) + 2 ≤ size) :
    ∃ b', statsBeginNesting b key = some b' ∧
      BufHolds size b' (text ++ (34 :: key ++ [34, 58, 32, 123])) (used + (key.length + 8))
        (slack + 1) := by
  have hcost : (34 :: key ++ [34, 58, 32, 123]).length + 1 + 1 ≤ key.length + 8 := by
    simp only [List.length_append, List.length_cons, List.length_nil]
    omega
  exact h.print hsize hcost hfit

end Steps

/-! ### Loops -/

section Loops

variable {size slack : ℕ} {pre : List Byte}

/-- **A loop of writes**: each adds a member and stays below what was foreseen for it. -/
theorem bufHolds_foldlM {α : Type} {f : StatsBuffer → α → Option StatsBuffer} {extent : α → ℕ}
    {member : α → List Byte × Json} (xs : List α)
    (hstep : ∀ x ∈ xs, ∀ (b : StatsBuffer) (inner : List Byte) (ms : List (List Byte × Json))
      (used : ℕ),
      BufHolds size b (pre ++ inner) used slack → Entries inner ms → used + extent x + 2 ≤ size →
      ∃ b' inner', f b x = some b' ∧ Entries inner' (ms ++ [member x]) ∧
        BufHolds size b' (pre ++ inner') (used + extent x) slack) :
    ∀ (b : StatsBuffer) (inner : List Byte) (ms : List (List Byte × Json)) (used : ℕ),
      BufHolds size b (pre ++ inner) used slack → Entries inner ms →
        used + (xs.map extent).sum + 2 ≤ size →
      ∃ b' inner', xs.foldlM f b = some b' ∧ Entries inner' (ms ++ xs.map member) ∧
        BufHolds size b' (pre ++ inner') (used + (xs.map extent).sum) slack := by
  induction xs with
  | nil =>
    intro b inner ms used h he _
    refine ⟨b, inner, rfl, ?_, h⟩
    rw [List.map_nil, List.append_nil]
    exact he
  | cons x xs ih =>
    intro b inner ms used h he hfit
    rw [List.map_cons, List.sum_cons] at hfit
    obtain ⟨b₁, inner₁, hb₁, he₁, h₁⟩ := hstep x List.mem_cons_self b inner ms used h he (by omega)
    obtain ⟨b₂, inner₂, hb₂, he₂, h₂⟩ :=
      ih (fun y hy => hstep y (List.mem_cons_of_mem _ hy)) b₁ inner₁ _ _ h₁ he₁ (by omega)
    refine ⟨b₂, inner₂, ?_, ?_, ?_⟩
    · rw [List.foldlM_cons, hb₁]
      exact hb₂
    · rw [List.map_cons]
      simpa using he₂
    · rw [List.map_cons, List.sum_cons, ← Nat.add_assoc]
      exact h₂

/-- The metrics of an array. -/
theorem BufHolds.copyMetric {ms : Metrics} (hsize : size < 2 ^ 31)
    (hkeys : ∀ kv ∈ ms, Verbatim kv.1) {b : StatsBuffer}
    {inner : List Byte} {before : List (List Byte × Json)} {used : ℕ}
    (h : BufHolds size b (pre ++ inner) used slack)
    (he : Entries inner before) (hfit : used + metricExtent ms + 2 ≤ size) :
    ∃ b' inner', statsCopyMetric b ms = some b' ∧ Entries inner' (before ++ numMembers ms) ∧
      BufHolds size b' (pre ++ inner') (used + metricExtent ms) slack := by
  refine bufHolds_foldlM ms ?_ b inner before used h he hfit
  intro kv hkv b inner before used h he hfit
  exact h.addNum hsize he (hkeys kv hkv) hfit

theorem StatsServerField.verbatim_name (f : StatsServerField) :
    Verbatim f.name := by cases f <;> decide +kernel

theorem StatsPoolField.verbatim_name (f : StatsPoolField) :
    Verbatim f.name := by cases f <;> decide +kernel

theorem ServerSum.numMembers_ne_nil (s : ServerSum) :
    numMembers s.metric ≠ [] := List.cons_ne_nil _ _

theorem PoolSum.numMembers_ne_nil (p : PoolSum) : numMembers p.metric ≠ [] := List.cons_ne_nil _ _

theorem verbatim_serverMetric (s : ServerSum) : ∀ kv ∈ s.metric, Verbatim kv.1 := by
  intro kv hkv
  obtain ⟨f, -, rfl⟩ := List.mem_map.1 hkv
  exact f.verbatim_name

theorem verbatim_poolMetric (p : PoolSum) : ∀ kv ∈ p.metric, Verbatim kv.1 := by
  intro kv hkv
  obtain ⟨f, -, rfl⟩ := List.mem_map.1 hkv
  exact f.verbatim_name

/-- An object behind its name, as it is written and as an entry. -/
theorem nested_text (pre inner name body : List Byte) :
    pre ++ (inner ++ (quoted name ++ [58, 32, 123] ++ body ++ [125, 44])) =
      pre ++ inner ++ (34 :: name ++ [34, 58, 32, 123]) ++ (body ++ [125, 44]) := by
  simp [quoted]

/-- A server. -/
theorem BufHolds.addServer {s : ServerSum} (hsize : size < 2 ^ 31) (hname : Verbatim s.name)
    {b : StatsBuffer}
    {inner : List Byte} {before : List (List Byte × Json)} {used : ℕ}
    (h : BufHolds size b (pre ++ inner) used slack)
    (he : Entries inner before) (hfit : used + serverExtent s + 2 ≤ size) :
    ∃ b' inner', statsAddServer b s = some b' ∧ Entries inner' (before ++ [serverMember s]) ∧
      BufHolds size b' (pre ++ inner') (used + serverExtent s) slack := by
  rw [serverExtent] at hfit ⊢
  obtain ⟨b₁, hb₁, h₁⟩ := h.beginNesting hsize (show used + (s.name.length + 8) + 2 ≤ size by omega)
  obtain ⟨b₂, metrics, hb₂, he₂, h₂⟩ := BufHolds.copyMetric hsize (verbatim_serverMetric s)
    (show BufHolds size b₁ (_ ++ []) _ _ by rw [List.append_nil]; exact h₁) .nil (by omega)
  rw [List.nil_append] at he₂
  obtain ⟨b₃, body, hb₃, hbody, h₃⟩ := h₂.endNesting (by omega) he₂ s.numMembers_ne_nil
  refine ⟨b₃, inner ++ (quoted s.name ++ [58, 32, 123] ++ body ++ [125, 44]), ?_,
    he.object hname hbody, ?_⟩
  · rw [statsAddServer, hb₁, Option.bind_some, hb₂, Option.bind_some, hb₃]
  · rw [nested_text, ← Nat.add_assoc]
    exact h₃

/-- The servers of a pool. -/
theorem BufHolds.addServers {servers : List ServerSum} (hsize : size < 2 ^ 31)
    (hnames : ∀ s ∈ servers, Verbatim s.name)
    {b : StatsBuffer} {inner : List Byte} {before : List (List Byte × Json)} {used : ℕ}
    (h : BufHolds size b (pre ++ inner) used slack) (he : Entries inner before)
    (hfit : used + (servers.map serverExtent).sum + 2 ≤ size) :
    ∃ b' inner', servers.foldlM statsAddServer b = some b' ∧
      Entries inner' (before ++ servers.map serverMember) ∧
      BufHolds size b' (pre ++ inner') (used + (servers.map serverExtent).sum) slack := by
  refine bufHolds_foldlM servers ?_ b inner before used h he hfit
  intro s hs b inner before used h he hfit
  exact h.addServer hsize (hnames s hs) he hfit

/-- **A pool**: its metrics, and inside of it its servers. -/
theorem BufHolds.addPool {p : PoolSum} (hsize : size < 2 ^ 31) (hname : Verbatim p.name)
    (hservers : ∀ s ∈ p.server, Verbatim s.name) {b : StatsBuffer} {inner : List Byte}
    {before : List (List Byte × Json)} {used : ℕ} (h : BufHolds size b (pre ++ inner) used slack)
    (he : Entries inner before) (hfit : used + poolExtent p + 2 ≤ size) :
    ∃ b' x, statsAddPool b p = some b' ∧ Entries (x ++ [125, 44]) (before ++ [poolMember p]) ∧
      BufHolds size b' (pre ++ (x ++ [125, 44])) (used + poolExtent p) slack := by
  rw [poolExtent] at hfit ⊢
  obtain ⟨b₁, hb₁, h₁⟩ := h.beginNesting hsize (show used + (p.name.length + 8) + 2 ≤ size by omega)
  obtain ⟨b₂, metrics, hb₂, he₂, h₂⟩ := BufHolds.copyMetric hsize (verbatim_poolMetric p)
    (show BufHolds size b₁ (_ ++ []) _ _ by rw [List.append_nil]; exact h₁) .nil (by omega)
  rw [List.nil_append] at he₂
  obtain ⟨b₃, members, hb₃, he₃, h₃⟩ := h₂.addServers hsize hservers he₂ (by omega)
  obtain ⟨b₄, body, hb₄, hbody, h₄⟩ := h₃.endNesting (by omega) he₃
    (List.append_ne_nil_of_left_ne_nil p.numMembers_ne_nil _)
  have hinner : inner ++ (quoted p.name ++ [58, 32, 123] ++ body) ++ [125, 44] =
      inner ++ (quoted p.name ++ [58, 32, 123] ++ body ++ [125, 44]) := by
    simp
  refine ⟨b₄, inner ++ (quoted p.name ++ [58, 32, 123] ++ body), ?_, ?_, ?_⟩
  · rw [statsAddPool, hb₁, Option.bind_some, hb₂, Option.bind_some, hb₃, Option.bind_some, hb₄]
  · rw [hinner]
    exact he.object hname hbody
  · rw [hinner, nested_text, ← Nat.add_assoc, ← Nat.add_assoc]
    exact h₄

/-- The pools. -/
theorem BufHolds.addPools {pools : List PoolSum} (hsize : size < 2 ^ 31)
    (hnames : ∀ p ∈ pools, Verbatim p.name ∧ ∀ s ∈ p.server, Verbatim s.name) {b : StatsBuffer}
      {inner : List Byte}
    {before : List (List Byte × Json)} {used : ℕ} (h : BufHolds size b (pre ++ inner) used slack)
    (he : Entries inner before) (hfit : used + (pools.map poolExtent).sum + 2 ≤ size) :
    ∃ b' inner', pools.foldlM statsAddPool b = some b' ∧
      Entries inner' (before ++ pools.map poolMember) ∧
      BufHolds size b' (pre ++ inner') (used + (pools.map poolExtent).sum) slack := by
  refine bufHolds_foldlM pools ?_ b inner before used h he hfit
  intro p hp b inner before used h he hfit
  obtain ⟨b', x, hb', he', h'⟩ := h.addPool hsize (hnames p hp).1 (hnames p hp).2 he hfit
  exact ⟨b', x ++ [125, 44], hb', he', h'⟩

/-- The strings of the header. -/
theorem BufHolds.addStrings {strings : List (List Byte × List Byte)} (hsize : size < 2 ^ 31)
    (hplain : ∀ kv ∈ strings, Verbatim kv.1 ∧ Verbatim kv.2) {b : StatsBuffer} {inner : List Byte}
    {before : List (List Byte × Json)} {used : ℕ} (h : BufHolds size b (pre ++ inner) used slack)
    (he : Entries inner before) (hfit : used + (strings.map stringExtent).sum + 2 ≤ size) :
    ∃ b' inner', strings.foldlM statsAddString b = some b' ∧
      Entries inner' (before ++ strings.map fun kv => (kv.1, .str kv.2)) ∧
      BufHolds size b' (pre ++ inner') (used + (strings.map stringExtent).sum) slack := by
  refine bufHolds_foldlM strings ?_ b inner before used h he hfit
  intro kv hkv b inner before used h he hfit
  exact h.addString hsize he (hplain kv hkv).1 (hplain kv hkv).2 hfit

end Loops

/-! ### The report -/

section Report

variable {size : ℕ} {st : StatsSum}

theorem metricExtent_numbers (st : StatsSum) (now : Sample) :
    (st.strings.map stringExtent).sum + metricExtent (st.numbers now) = headerExtent st := rfl

theorem verbatim_numbers (st : StatsSum) (now : Sample) : ∀ kv ∈ st.numbers now, Verbatim kv.1 := by
  intro kv hkv
  simp only [StatsSum.numbers, List.mem_cons, List.not_mem_nil, or_false] at hkv
  rcases hkv with rfl | rfl | rfl | rfl | rfl
  all_goals exact show Verbatim (str _) by decide +kernel

theorem verbatim_strings (hsource : Verbatim st.source) :
    ∀ kv ∈ st.strings, Verbatim kv.1 ∧ Verbatim kv.2 := by
  intro kv hkv
  simp only [StatsSum.strings, List.mem_cons, List.not_mem_nil, or_false] at hkv
  rcases hkv with rfl | rfl | rfl
  · exact ⟨by decide +kernel, by decide +kernel⟩
  · exact ⟨show Verbatim (str "source") by decide +kernel, hsource⟩
  · exact ⟨by decide +kernel, by decide +kernel⟩

/-- The header, in a buffer that may have been used before. -/
theorem bufHolds_addHeader (hsource : Verbatim st.source) (hsize : size < 2 ^ 31) (now : Sample)
    {b : StatsBuffer} (hb : b.size = size) (htop : b.top ≤ size)
    (hfit : 1 + headerExtent st + 2 ≤ size) :
    ∃ b' inner, statsAddHeader st now b = some b' ∧
      Entries inner ((st.strings.map fun kv => (kv.1, .str kv.2)) ++ numMembers (st.numbers now)) ∧
      BufHolds size b' ([123] ++ inner) (1 + headerExtent st) 0 := by
  rw [← metricExtent_numbers st now] at hfit ⊢
  have hstart : BufHolds size { b with data := [123], top := max b.top 1 } ([123] ++ []) 1 0 :=
    ⟨hb, rfl, Nat.le_refl 1, max_le htop (by omega)⟩
  obtain ⟨b₁, inner₁, hb₁, he₁, h₁⟩ := hstart.addStrings hsize (verbatim_strings hsource) .nil
    (by omega)
  rw [List.nil_append] at he₁
  obtain ⟨b₂, inner₂, hb₂, he₂, h₂⟩ := BufHolds.copyMetric hsize (verbatim_numbers st now) h₁ he₁
    (by omega)
  refine ⟨b₂, inner₂, ?_, he₂, ?_⟩
  · rw [statsAddHeader, hb₁, Option.bind_some]
    exact hb₂
  · rw [← Nat.add_assoc]
    exact h₂

theorem le_ncAlign (n : ℕ) : n ≤ ncAlign n := by
  rw [ncAlign]
  omega

/-- **The report fits into the buffer and is JSON**: `stats_make_rsp` succeeds, nothing is written
behind the end of the buffer, and its bytes are one object, with exactly the given names and values,
and a line feed. -/
theorem stats_report (st : StatsSum) (now : Sample) (b : StatsBuffer) (hpools : st.sum ≠ [])
    (hsource : Verbatim st.source)
    (hnames : ∀ p ∈ st.sum, Verbatim p.name ∧ ∀ s ∈ p.server, Verbatim s.name)
    (hsize : statsBufSize st < 2 ^ 31) (hb : b.size = statsBufSize st) (htop : b.top ≤ b.size) :
    ∃ b' text, statsMakeRsp st now b = some b' ∧ b'.size = b.size ∧ b'.top ≤ b'.size ∧
      b'.data = text ++ [10] ∧ Text text (report st now) := by
  have hfit : 1 + headerExtent st + (st.sum.map poolExtent).sum + 2 ≤ statsBufSize st :=
    le_ncAlign _
  obtain ⟨b₁, inner₁, hb₁, he₁, h₁⟩ := bufHolds_addHeader hsource hsize now hb (hb ▸ htop)
    (by omega)
  -- the last pool is taken apart: behind it there is a brace and a comma
  rcases List.eq_nil_or_concat st.sum with hnil | ⟨pools, p, hsum⟩
  · exact absurd hnil hpools
  rw [List.concat_eq_append] at hsum
  have hextent : (st.sum.map poolExtent).sum = (pools.map poolExtent).sum + poolExtent p := by
    rw [hsum, List.map_append, List.sum_append, List.map_cons, List.map_nil, List.sum_singleton]
  have hinit : ∀ q ∈ pools, Verbatim q.name ∧ ∀ s ∈ q.server, Verbatim s.name := by
    intro q hq
    exact hnames q (by simp [hsum, hq])
  obtain ⟨b₂, inner₂, hb₂, he₂, h₂⟩ := h₁.addPools hsize hinit he₁ (by omega)
  obtain ⟨hp, hservers⟩ := hnames p (by simp [hsum])
  obtain ⟨b₃, x, hb₃, he₃, h₃⟩ := h₂.addPool hsize hp hservers he₂ (by omega)
  obtain ⟨body, hbody, hend⟩ := he₃.close (by simp)
  have hx : body = x ++ [125] := by
    rcases hend with hend | ⟨y, -, hend⟩
    · have hlast := congrArg List.getLast? hend
      simp at hlast
    · have hcut := congrArg List.dropLast hend
      rw [List.dropLast_concat] at hcut
      rw [← hcut]
      simp
  subst hx
  have hlen := h₃.length_le
  have hfull : b₃.data.length ≠ b₃.size := by
    rw [h₃.data_eq, h₃.size_eq]
    omega
  refine ⟨{ b₃ with data := b₃.data.dropLast ++ [125, 10], top := max b₃.top (b₃.data.length + 1) },
    123 :: (x ++ [125]) ++ [125], ?_, ?_, ?_, ?_, ?_⟩
  · have hall : st.sum.foldlM statsAddPool b₁ = some b₃ := by
      rw [hsum, List.foldlM_append, hb₂, Option.bind_eq_bind, Option.bind_some, List.foldlM_cons,
        hb₃,
        Option.bind_eq_bind, Option.bind_some, List.foldlM_nil]
      rfl
    rw [statsMakeRsp, hb₁, Option.bind_some, hall, Option.bind_some, statsAddFooter, if_neg hfull]
  · exact h₃.size_eq.trans hb.symm
  · change max b₃.top (b₃.data.length + 1) ≤ b₃.size
    rw [h₃.size_eq, h₃.data_eq]
    exact max_le h₃.top_le (by omega)
  · change b₃.data.dropLast ++ [125, 10] = _
    rw [h₃.data_eq, show [123] ++ (x ++ [125, 44]) = (123 :: (x ++ [125])) ++
      [44] by simp, List.dropLast_concat]
    simp
  · rw [report, hsum, List.map_append, ← List.append_assoc]
    exact .obj hbody

end Report

/-- A pool with one server, and a value of twenty characters. -/
def onePool : StatsSum :=
  { source := str "host"
    startTs := 5
    sum := [{ name := str "alpha", value := fun _ => BitVec.ofNat 64 (2 ^ 63),
              server := [{ name := str "127.0.0.1:6379", value := fun _ => 7 }] }] }

theorem stats_report_onePool :
    ∃ b' text, statsMakeRsp onePool ⟨9, 1, 2, 3⟩ { size := statsBufSize onePool } = some b' ∧
      b'.size = statsBufSize onePool ∧ b'.top ≤ b'.size ∧ b'.data = text ++ [10] ∧
      Text text (report onePool ⟨9, 1, 2, 3⟩) := by
  refine stats_report onePool ⟨9, 1, 2, 3⟩ { size := statsBufSize onePool }
    (List.cons_ne_nil _ _) ?_ ?_ ?_ rfl
    (Nat.zero_le _)
  · exact show Verbatim (str "host") by decide +kernel
  · intro p hp
    rw [List.mem_singleton.1 hp]
    refine ⟨show Verbatim (str "alpha") by decide +kernel, ?_⟩
    intro s hs
    rw [List.mem_singleton.1 hs]
    exact show Verbatim (str "127.0.0.1:6379") by decide +kernel
  · decide +kernel

end CacheProxy
