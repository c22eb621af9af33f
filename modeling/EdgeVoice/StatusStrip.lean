import EdgeVoice.HealthReport

/-! The console's status strip: the rows in which the page shows the answers to its polls, as
they arrive. Rows are made once and kept in caches. A number's text is that of its exact value;
markup in a name is left out. -/

namespace EdgeVoice.StatusStrip
open PythonText VadWorker KeyedRows HealthReport

section Properties

variable {α β : Type*}

/-- The array index that a property's name is, if it is one. -/
def arrayIndex (name : Str) : Option ℕ :=
  let n := name.foldl (fun n c => 10 * n + (c.toNat - '0'.toNat)) 0
  if name = decimal n ∧ n < 2 ^ 32 - 1 then some n else none

/-- The order in which JavaScript visits an object's properties: array indices first, from the
least on, and then the others as they came. -/
def propertyOrder (name : α → Str) (properties : List α) : List α :=
  (properties.filter fun p => (arrayIndex (name p)).isSome).insertionSort
      (fun p q => (arrayIndex (name p)).getD 0 ≤ (arrayIndex (name q)).getD 0) ++
    properties.filter fun p => !(arrayIndex (name p)).isSome

theorem propertyOrder_perm (name : α → Str) (properties : List α) :
    (propertyOrder name properties).Perm properties :=
  ((List.perm_insertionSort _ _).append_right _).trans (List.filter_append_perm _ _)

theorem propertyOrder_map (f : α → β) (name : β → Str) (properties : List α) :
    (propertyOrder (fun p => name (f p)) properties).map f =
      propertyOrder name (properties.map f) := by
  rw [propertyOrder, propertyOrder, List.map_append, List.filter_map, List.filter_map]
  congr 1
  exact List.map_insertionSort _ _ _ _ fun _ _ _ _ => Iff.rfl

example : propertyOrder id ["rx".toList, "10".toList, "02".toList, "9".toList] =
    ["9".toList, "10".toList, "rx".toList, "02".toList] := by decide +kernel

end Properties

section Strip

/-- What the page reads of an answer; of a failed poll only `running` is there. -/
structure Payload where
  status : Option Verdict := none
  running : Bool := false
  degraded : Bool := false
  workers : List (Str × Str) := []
  queueDepths : List (Str × ℕ) := []
  channels : Option (List (Str × ChannelInfo)) := none
  metrics : Option (MetricsState × Option ℚ) := none
  mqttConnected : Option Bool := none
  latencies : Option Latencies := none

def payload (r : Report) : Payload where
  status := some r.verdict
  running := r.status.running
  degraded := r.status.degraded
  workers := r.status.workers
  queueDepths := r.queueDepths
  channels := some r.channels
  metrics := some r.metrics
  mqttConnected := r.mqttConnected
  latencies := r.latencies

inductive Mark
  | ok
  | warn
  | dim
deriving DecidableEq

/-- A text and its mark, if any. -/
abbrev Shown := Str × Option Mark

def dash : Str := ['—']

/-- `Math.round`. -/
def mathRound (x : ℚ) : Str :=
  let n := ⌊x + 1 / 2⌋
  (if n < 0 then ['-'] else []) ++ decimal n.natAbs

/-- `x.toFixed(digits)` of an `x` that is not negative. -/
def toFixed (digits : ℕ) (x : ℚ) : Str :=
  let n := ⌊x * 10 ^ digits + 1 / 2⌋.toNat
  if digits = 0 then decimal n
  else
    let fraction := decimal (n % 10 ^ digits)
    decimal (n / 10 ^ digits) ++ '.' :: (List.replicate (digits - fraction.length) '0' ++ fraction)

def formatAge : Option ℚ → Str
  | none => dash
  | some seconds =>
    let s := max 0 seconds
    (if s < 10 then toFixed 1 s else mathRound s) ++ ['s']

def formatLatency (seconds : ℚ) : Str :=
  if seconds < 1 / 1000 then mathRound (seconds * 1000000) ++ ['µ', 's']
  else if seconds < 1 then
    toFixed (if seconds < 1 / 100 then 2 else 0) (seconds * 1000) ++ ['m', 's']
  else toFixed 2 seconds ++ ['s']

/-- A channel's row: its text, and its dot. -/
abbrev ChannelRow := Shown × Option Mark

def channelRow (info : ChannelInfo) : ChannelRow :=
  ((formatAge info.freshnessS,
      if info.stale then some .warn else if info.freshnessS.isSome then none else some .dim),
    if info.stale then some .warn else if info.freshnessS.isSome then some .ok else some .dim)

def blankRow : ChannelRow := ((dash, some .dim), some .dim)

/-- The names that `chanCache[id]` finds on `{}` itself. -/
def objectPrototype : List Str :=
  ["constructor".toList, "__defineGetter__".toList, "__defineSetter__".toList,
    "hasOwnProperty".toList, "__lookupGetter__".toList, "__lookupSetter__".toList,
    "isPrototypeOf".toList, "propertyIsEnumerable".toList, "toString".toList,
    "valueOf".toList, "__proto__".toList, "toLocaleString".toList]

/-- The loop over the channels; what it finds on `{}` is no row, and it throws. -/
def renderListed (rows : List (Str × ChannelRow)) :
    List (Str × ChannelInfo) → List (Str × ChannelRow) × Bool
  | [] => (rows, false)
  | (id, info) :: channels =>
    if id ∈ objectPrototype then (rows, true)
    else renderListed (setRow rows id (channelRow info)) channels

def renderChannels (rows : List (Str × ChannelRow)) (channels : Option (List (Str × ChannelInfo))) :
    List (Str × ChannelRow) × Bool :=
  match channels with
  | none => (rows.map fun row => (row.1, blankRow), false)
  | some channels => renderListed rows (propertyOrder Prod.fst channels)

structure Module where
  worker : Str
  label : Str
  latency : Option (Latencies → ByChannel)
  channel : Option Str := none

def modules : List Module :=
  [⟨"MqttAudioIngest".toList, "Ingest".toList, none, none⟩,
    ⟨"ChannelRouter".toList, "Router".toList, some Latencies.router, none⟩,
    ⟨"VADWorker".toList, "VAD".toList, some Latencies.vadSilero, none⟩,
    ⟨"STTWorker-rx".toList, "STT RX".toList, some Latencies.stt, some "rx".toList⟩,
    ⟨"STTWorker-tx".toList, "STT TX".toList, some Latencies.stt, some "tx".toList⟩,
    ⟨"Supervisor".toList, "Supervisor".toList, none, none⟩]

/-- The classes that are toggled, and the latency's text. -/
structure ModuleRow where
  label : Str
  running : Bool
  restarting : Bool
  degraded : Bool
  stopped : Bool
  dim : Bool
  lat : Str
deriving DecidableEq

def worstLatency (byChannel : ByChannel) : Option ℚ :=
  (propertyOrder Prod.fst byChannel).foldl (fun worst entry => match worst with
    | none => some entry.2
    | some w => if w < entry.2 then some entry.2 else some w) none

def latencyValue (latencies : Option Latencies) (mod : Module) : Option ℚ :=
  match mod.latency, latencies with
  | some stage, some latencies =>
    match mod.channel with
    | some c => (stage latencies).lookup c
    | none => worstLatency (stage latencies)
  | _, _ => none

def moduleRow (data : Payload) (mod : Module) : ModuleRow :=
  let state := data.workers.lookup mod.worker
  { label := mod.label
    running := state = some "running".toList
    restarting := state = some "restarting".toList
    degraded := state = some "degraded".toList
    stopped := state = some "stopped".toList
    dim := state.isNone
    lat := match latencyValue data.latencies mod with
      | none => []
      | some seconds => formatLatency seconds }

def renderModules (rows : List (Str × ModuleRow)) (data : Payload) : List (Str × ModuleRow) :=
  setRows rows (modules.map fun mod => (mod.worker, moduleRow data mod))

/-- `queues` with no entry shows the dash. As loaded, it is what console.html has. -/
structure Strip where
  stopped : Bool := true
  degraded : Bool := false
  label : Str := "connecting".toList
  cursor : Str := "connecting…".toList
  mqtt : Shown := (dash, none)
  queues : List (Str × ℕ) := []
  metrics : Shown := (dash, none)
  channels : List (Str × ChannelRow) := []
  modules : List (Str × ModuleRow) := []
deriving DecidableEq

def mqttShown : Option Bool → Shown
  | some true => ("connected".toList, some .ok)
  | some false => ("down".toList, some .dim)
  | none => (dash, some .dim)

def metricsShown : Option (MetricsState × Option ℚ) → Shown
  | some (.disabled, _) => ("off".toList, some .dim)
  | some (.pending, _) => ("waiting".toList, some .dim)
  | some (.ok, age) => (formatAge age ++ " ago".toList, none)
  | none => (dash, some .dim)

def Payload.verdict (data : Payload) : Verdict :=
  data.status.getD (if data.running then .ok else .down)

def labelOf (data : Payload) : Str :=
  if data.verdict = .down then "stopped".toList
  else if data.degraded then "degraded".toList
  else if data.mqttConnected = some false then "mqtt down".toList
  else "live".toList

def cursorOf (data : Payload) : Str :=
  if data.verdict = .down then "pipeline stopped".toList
  else if data.degraded then "running — worker degraded".toList
  else if data.mqttConnected = some false then "running — mqtt disconnected".toList
  else "waiting for next line".toList

/-- setStatus() and renderStrip(), and whether it threw: then the modules are as before. -/
def setStatus (s : Strip) (data : Payload) : Strip × Bool :=
  let (channels, threw) := renderChannels s.channels data.channels
  ({ stopped := data.verdict = .down
     degraded := data.verdict = .warn
     label := labelOf data
     cursor := cursorOf data
     mqtt := mqttShown data.mqttConnected
     queues := propertyOrder Prod.fst data.queueDepths
     metrics := metricsShown data.metrics
     channels
     modules := if threw then s.modules else renderModules s.modules data }, threw)

/-- An answer to a poll, or none: the catch() is behind setStatus() too. -/
def answer (s : Strip) (report : Option Report) : Strip :=
  match report with
  | none => (setStatus s {}).1
  | some r =>
    match setStatus s (payload r) with
    | (shown, false) => shown
    | (shown, true) => (setStatus shown {}).1

/-- The strip of a page after the answers that came, in the order they came. -/
def strip (answers : List (Option Report)) : Strip := answers.foldl answer {}

end Strip

section Answers

variable {s t : Strip} {data : Payload} {r : Report} {a last : Option Report}
variable {rows : List (Str × ChannelRow)} {channels : List (Str × ChannelInfo)}

/-- No channel is named like a property of every object. -/
def Plain (r : Report) : Prop := ∀ c ∈ r.channels, c.1 ∉ objectPrototype

instance (r : Report) : Decidable (Plain r) :=
  inferInstanceAs (Decidable (∀ c ∈ r.channels, c.1 ∉ objectPrototype))

/-- What setStatus() gets through. -/
def taken (a : Option Report) : Option Report := a.filter fun r => Plain r

/-- A channel's entry, as its row. -/
def entryRow (c : Str × ChannelInfo) : Str × ChannelRow := (c.1, channelRow c.2)

/-- What the loop makes of a report's channels, in its order. -/
def listed (r : Report) : List (Str × ChannelRow) :=
  (propertyOrder Prod.fst r.channels).map entryRow

/-- The part of them that the loop gets to. -/
def visited (a : Option Report) : List (Str × ChannelRow) :=
  a.elim [] fun r => (listed r).takeWhile fun row => row.1 ∉ objectPrototype

theorem listed_keys (r : Report) :
    (listed r).map Prod.fst = propertyOrder id (r.channels.map Prod.fst) := by
  rw [listed, List.map_map]
  exact propertyOrder_map Prod.fst id r.channels

theorem mem_listed {row : Str × ChannelRow} :
    row ∈ listed r ↔ ∃ c ∈ r.channels, entryRow c = row := by
  simp [listed, (propertyOrder_perm Prod.fst r.channels).mem_iff]

theorem mem_listed_keys {key : Str} :
    key ∈ (listed r).map Prod.fst ↔ key ∈ r.channels.map Prod.fst := by
  rw [listed_keys, (propertyOrder_perm id _).mem_iff]

theorem listed_distinct (r : Report) : ((listed r).map Prod.fst).Nodup := by
  rw [listed_keys, (propertyOrder_perm id _).nodup_iff]
  exact r.distinct

theorem visited_distinct (a : Option Report) : ((visited a).map Prod.fst).Nodup := by
  cases a with
  | none => exact List.nodup_nil
  | some r => exact (listed_distinct r).sublist ((List.takeWhile_sublist _).map _)

theorem visited_plain (plain : Plain r) : visited (some r) = listed r := by
  refine List.takeWhile_eq_self_iff.mpr fun row member => ?_
  obtain ⟨c, there, rfl⟩ := mem_listed.mp member
  exact decide_eq_true (plain c there)

/-- The loop sets the rows up to the first entry it throws at. -/
theorem renderListed_eq : renderListed rows channels =
    (setRows rows ((channels.map entryRow).takeWhile fun row => row.1 ∉ objectPrototype),
      channels.any fun c => c.1 ∈ objectPrototype) := by
  induction channels generalizing rows with
  | nil => rfl
  | cons c channels ih =>
    by_cases found : c.1 ∈ objectPrototype
    · simp [renderListed, entryRow, setRows, found]
    · simp [renderListed, entryRow, setRows_cons, found, ih]

theorem renderChannels_eq : renderChannels rows (some r.channels) =
    (setRows rows (visited (some r)), !decide (Plain r)) := by
  rw [renderChannels, renderListed_eq]
  refine Prod.ext rfl ?_
  rw [(propertyOrder_perm Prod.fst r.channels).any_eq, ← decide_not, List.any_eq]
  simp only [Plain, not_forall, not_not, decide_eq_true_eq, exists_prop]

theorem setStatus_plain (plain : Plain r) :
    setStatus s (payload r) = ({ (setStatus {} (payload r)).1 with
      channels := setRows s.channels (listed r)
      modules := renderModules s.modules (payload r) }, false) := by
  simp [setStatus, payload, renderChannels_eq, visited_plain plain, plain]

theorem answer_plain (plain : Plain r) :
    answer s (some r) = { (setStatus {} (payload r)).1 with
      channels := setRows s.channels (listed r)
      modules := renderModules s.modules (payload r) } := by
  rw [answer, setStatus_plain plain]

/-- A failed poll, and an answer that setStatus() does not get through, blank the strip. -/
theorem answer_blank (blank : taken a = none) :
    answer s a = { (setStatus {} {}).1 with
      channels := (setRows s.channels (visited a)).map fun row => (row.1, blankRow)
      modules := renderModules s.modules {} } := by
  cases a with
  | none => rfl
  | some r =>
    have found : ¬Plain r := fun plain => absurd blank (by simp [taken, Option.filter, plain])
    have threw : renderChannels s.channels (payload r).channels =
        (setRows s.channels (visited (some r)), true) := by
      rw [payload, renderChannels_eq, decide_eq_false found, Bool.not_false]
    simp only [answer, setStatus, threw]
    rfl

theorem taken_some (kept : taken a = some r) : a = some r ∧ Plain r := by
  obtain ⟨same, plain⟩ := Option.filter_eq_some_iff.mp kept
  exact ⟨same, of_decide_eq_true plain⟩

/-- The cache of the modules' rows is empty or whole. -/
def Fit (s : Strip) : Prop :=
  s.modules = [] ∨ s.modules.map Prod.fst = modules.map Module.worker

theorem renderModules_fit (fit : Fit s) (data : Payload) :
    renderModules s.modules data = modules.map fun mod => (mod.worker, moduleRow data mod) := by
  have distinct :
      ((modules.map fun mod => (mod.worker, moduleRow data mod)).map Prod.fst).Nodup := by
    rw [List.map_map]
    exact (by decide : (modules.map Module.worker).Nodup)
  rcases fit with none | whole
  · rw [none]
    exact setRows_new distinct
  · refine @setRows_known _ _ _ [] _ _ distinct ?_
    rw [whole, List.map_map]
    rfl

theorem renderModules_keys (fit : Fit s) (data : Payload) :
    (renderModules s.modules data).map Prod.fst = modules.map Module.worker := by
  rw [renderModules_fit fit, List.map_map]
  rfl

theorem Fit.rendered (fit : Fit s) (same : t.modules = renderModules s.modules data) : Fit t := by
  right
  rw [same]
  exact renderModules_keys fit data

theorem Fit.answered (fit : Fit s) (a : Option Report) : Fit (answer s a) := by
  cases kept : taken a with
  | none =>
    have same : (answer s a).modules = renderModules s.modules {} := by rw [answer_blank kept]
    exact fit.rendered same
  | some r =>
    obtain ⟨rfl, plain⟩ := taken_some kept
    have same : (answer s (some r)).modules = renderModules s.modules (payload r) := by
      rw [answer_plain plain]
    exact fit.rendered same

/-- Apart from the channels' rows, what a strip shows is in the last answer. -/
theorem answer_rest (fit : Fit s) (a : Option Report) :
    { answer s a with channels := [] } = { answer {} a with channels := [] } := by
  have fresh : Fit {} := Or.inl rfl
  cases kept : taken a with
  | none =>
    rw [answer_blank kept, answer_blank kept, renderModules_fit fit, renderModules_fit fresh]
  | some r =>
    obtain ⟨rfl, plain⟩ := taken_some kept
    rw [answer_plain plain, answer_plain plain, renderModules_fit fit, renderModules_fit fresh]

/-- Rows are not moved, and no answer takes one away. -/
theorem answer_keys (s : Strip) (a : Option Report) :
    (answer s a).channels.map Prod.fst = s.channels.map Prod.fst ++
      ((visited a).map Prod.fst).filter fun key => key ∉ s.channels.map Prod.fst := by
  have set : (setRows s.channels (visited a)).map Prod.fst = s.channels.map Prod.fst ++
      ((visited a).map Prod.fst).filter fun key => key ∉ s.channels.map Prod.fst := by
    convert setRows_keys (visited_distinct a)
  rw [← set]
  cases kept : taken a with
  | none =>
    rw [answer_blank kept, List.map_map]
    rfl
  | some r =>
    obtain ⟨rfl, plain⟩ := taken_some kept
    rw [answer_plain plain, visited_plain plain]

theorem answer_rows {row : Str × ChannelRow} :
    row ∈ (answer s a).channels ↔
      match taken a with
      | none => row.2 = blankRow ∧ row.1 ∈ (answer s a).channels.map Prod.fst
      | some r => row ∈ listed r ∨ row ∈ s.channels ∧ row.1 ∉ r.channels.map Prod.fst := by
  cases kept : taken a with
  | none =>
    rw [answer_blank kept, List.map_map, List.mem_map, List.mem_map]
    constructor
    · rintro ⟨old, there, rfl⟩
      exact ⟨rfl, old, there, rfl⟩
    · rintro ⟨blank, old, there, same⟩
      exact ⟨old, there, Prod.ext same blank.symm⟩
  | some r =>
    obtain ⟨rfl, plain⟩ := taken_some kept
    rw [answer_plain plain]
    simpa only [mem_listed_keys] using mem_setRows (listed_distinct r)

/-- The cache of the channels' rows is empty or has the same channels. -/
def Listing (keys : List Str) (s : Strip) : Prop :=
  s.channels = [] ∨ s.channels.map Prod.fst = propertyOrder id keys

theorem setRows_listing (listing : Listing (r.channels.map Prod.fst) s) :
    setRows s.channels (listed r) = listed r := by
  rcases listing with none | whole
  · rw [none]
    exact setRows_new (listed_distinct r)
  · exact @setRows_known _ _ _ [] _ _ (listed_distinct r) (whole.trans (listed_keys r).symm)

theorem Listing.answered {keys : List Str} (listing : Listing keys s)
    (plain : ∀ key ∈ keys, key ∉ objectPrototype)
    (same : ∀ r, a = some r → r.channels.map Prod.fst = keys) : Listing keys (answer s a) := by
  cases a with
  | none =>
    refine listing.imp (fun none => ?_) fun whole => ?_
    · show s.channels.map _ = []
      rw [none, List.map_nil]
    · show (s.channels.map _).map Prod.fst = propertyOrder id keys
      rw [← whole, List.map_map]
      rfl
  | some r =>
    obtain rfl := same r rfl
    have fine : Plain r := fun c member => plain c.1 (List.mem_map_of_mem member)
    rw [answer_plain fine]
    right
    simp only [setRows_listing listing, listed_keys]

theorem strip_concat (answers : List (Option Report)) (last : Option Report) :
    strip (answers ++ [last]) = answer (strip answers) last := by
  rw [strip, List.foldl_append]
  rfl

theorem strip_fit (answers : List (Option Report)) : Fit (strip answers) := by
  induction answers using List.reverseRecOn with
  | nil => exact Or.inl rfl
  | append_singleton answers last ih =>
    rw [strip_concat]
    exact ih.answered last

theorem strip_listing {answers : List (Option Report)} {keys : List Str}
    (plain : ∀ key ∈ keys, key ∉ objectPrototype)
    (same : ∀ r, some r ∈ answers → r.channels.map Prod.fst = keys) :
    Listing keys (strip answers) := by
  induction answers using List.reverseRecOn with
  | nil => exact Or.inl rfl
  | append_singleton answers last ih =>
    rw [strip_concat]
    exact (ih fun r member => same r (List.mem_append_left _ member)).answered plain
      fun r named => same r (by simp [named])

theorem strip_ext (rest : { s with channels := [] } = { t with channels := [] })
    (rows : s.channels = t.channels) : s = t := by
  cases s
  cases t
  simp_all

/-- What the strip shows is what the last answer says, whatever came before and in whatever
order answers overtook each other. Apart from the channels' rows it is what a page shows that got
that answer only. The rows are those of before and then the new ones the loop gets to, in its
order. A channel of the answer has its row, which shows what the answer says of it, and a row
whose channel is not in it shows what it showed; after a poll that failed, or whose channels
break the loop, all are blank and the strip reads "stopped". While all reports list the same
channels the rows too are those of that page. -/
theorem strip_shows_last_answer (answers : List (Option Report)) (last : Option Report) :
    { strip (answers ++ [last]) with channels := [] } = { strip [last] with channels := [] } ∧
      (taken last = none → (strip (answers ++ [last])).label = "stopped".toList) ∧
      (strip (answers ++ [last])).channels.map Prod.fst =
        (strip answers).channels.map Prod.fst ++
          ((visited last).map Prod.fst).filter
            (fun key => key ∉ (strip answers).channels.map Prod.fst) ∧
      (∀ row, row ∈ (strip (answers ++ [last])).channels ↔
        match taken last with
        | none => row.2 = blankRow ∧ row.1 ∈ (strip (answers ++ [last])).channels.map Prod.fst
        | some r => row ∈ listed r ∨
          row ∈ (strip answers).channels ∧ row.1 ∉ r.channels.map Prod.fst) ∧
      ∀ r, taken last = some r →
        (∀ r', some r' ∈ answers → r'.channels.map Prod.fst = r.channels.map Prod.fst) →
          strip (answers ++ [last]) = strip [last] := by
  have only : strip [last] = answer {} last := rfl
  have rest := answer_rest (strip_fit answers) last
  rw [strip_concat, only]
  refine ⟨rest, fun blank => by rw [answer_blank blank]; rfl, answer_keys _ _,
    fun row => answer_rows, fun r kept same => strip_ext rest ?_⟩
  obtain ⟨rfl, plain⟩ := taken_some kept
  have listing : Listing (r.channels.map Prod.fst) (strip answers) :=
    strip_listing (fun key member => by
      obtain ⟨c, there, rfl⟩ := List.mem_map.mp member
      exact plain c there) same
  rw [answer_plain plain, answer_plain plain]
  simp only [setRows_listing listing]
  exact (@setRows_listing {} r (Or.inl rfl)).symm

end Answers

section Served

variable {running enabled : Bool} {threads : List Worker} {supervisor : Option Watch}
variable {depths : List (Str × ℕ)} {snapshot : Option MetricsSnapshot} {keys : ChannelKeys}
variable {freshness : Str → Option ℚ} {staleAfterS now : ℚ}

end Served

end EdgeVoice.StatusStrip
