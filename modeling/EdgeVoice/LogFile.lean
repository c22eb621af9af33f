import EdgeVoice.JsonLines
import EdgeVoice.NestedDict
import EdgeVoice.PythonText
import EdgeVoice.RotatingLog

/-! The log file of a run: what JsonFormatter makes of a record and of the fields its call site
and its stage's logger set, and the rotating file that configure_logging puts it in. Asking the
logging module for a time, a message or a traceback gives a text, which the record has here. -/

namespace EdgeVoice.LogFile
open PythonText NestedDict JsonText StepSystem Framing RotatingLog

/-- A record, with what its call site gave as `extra`, and the stage of its logger if that is
one of `get_stage_logger`. -/
structure LogRecord where
  levelno : ℕ
  levelname : Str
  name : Str
  timestamp : Str
  message : Str
  stage : Option Str := none
  extra : List (Str × Json) := []
  excInfo : Option Str := none

/-- `_STRUCTURED_FIELDS`. -/
def structuredFields : List Str :=
  ["stage".toList, "channel_id".toList, "segment_id".toList, "stt_latency_s".toList]

/-- `_MergingAdapter.process`: `{**bound, **extra}`. -/
def process (bound extra : List (Str × Json)) : List (Str × Json) :=
  extra.foldl (fun merged item => setItem item.1 item.2 merged) bound

/-- The attributes that the logger sets on the record. -/
def LogRecord.attributes (record : LogRecord) : List (Str × Json) :=
  match record.stage with
  | some stage => process [("stage".toList, .str stage)] record.extra
  | none => record.extra

/-- `getattr(record, field, None)`, if that is not `None`. -/
def LogRecord.attribute (record : LogRecord) (field : Str) : Option Json :=
  match record.attributes.lookup field with
  | some .null => none
  | found => found

/-- The payload of `JsonFormatter.format`. -/
def payload (record : LogRecord) : Json :=
  .obj ([("timestamp".toList, .str record.timestamp), ("level".toList, .str record.levelname),
    ("logger".toList, .str record.name), ("message".toList, .str record.message)] ++
    structuredFields.filterMap (fun field => (record.attribute field).map (field, ·)) ++
    record.excInfo.toList.map (fun text => ("exc_info".toList, .str text)))

/-- `JsonFormatter.format`. -/
def format (record : LogRecord) : Str := write false (payload record)

/-- The part of LoggingSettings that the file depends on, with `level` as its number. -/
structure LoggingSettings where
  enabled : Bool
  fileEnabled : Bool
  level : ℕ
  maxBytes : ℕ
  backupCount : ℕ
  maxBytes_pos : 0 < maxBytes

/-- `configure_logging`, the records that reach the file. -/
def handled (settings : LoggingSettings) (records : List LogRecord) : List LogRecord :=
  if settings.enabled && settings.fileEnabled then
    records.filter (settings.level ≤ ·.levelno)
  else []

/-- `configure_logging`, the limits of the file. -/
def fileLimits (settings : LoggingSettings) (rollsEmpty : Bool) : Limits :=
  ⟨settings.maxBytes, settings.backupCount, rollsEmpty, settings.maxBytes_pos⟩

/-- The line of a record: its text and a newline, in UTF-8. -/
def recordLine (record : LogRecord) : List UInt8 := JsonLines.line (format record)

/-- What logging the records does to the files. The handler compares the length of a text with
a number of bytes. -/
def fileOps (settings : LoggingSettings) (rollsEmpty : Bool) (records : List LogRecord) :
    List (Op UInt8) :=
  logging (fileLimits settings rollsEmpty) List.length (fun record => (format record).length + 1)
    recordLine fresh (handled settings records)

/-- What a tool finds that reads the files from the oldest on. -/
def readLog (settings : LoggingSettings) (dir : Dir UInt8) : List (Option Json) :=
  (outputs JsonLines.read [] (readBack dir settings.backupCount)).2

theorem format_oneLine (record : LogRecord) : ∀ c ∈ format record, c ≠ '\n' := by
  rintro c member rfl
  exact absurd (printable_write false (payload record) _ member).1 (by decide)

theorem recordLine_framed (record : LogRecord) :
    Framed JsonLines.read [] (recordLine record) (some (payload record)) := by
  have framed := JsonLines.line_framed (format_oneLine record)
  rwa [format, parse_write] at framed

theorem recordLine_nonempty (record : LogRecord) : recordLine record ≠ [] :=
  (recordLine_framed record).nonempty

theorem appended_fileOps (settings : LoggingSettings) (rollsEmpty : Bool)
    (records : List LogRecord) :
    appended (fileOps settings rollsEmpty records) =
      (handled settings records).flatMap recordLine :=
  appended_logging _ _

/-- Whenever logging breaks off, at any byte of a line and at any step of a rotation, a tool
finds in the files the last of the records whose lines are written whole, with all they say,
in order and with nothing in between; the last of them is always there. -/
theorem log_reads_back (settings : LoggingSettings) (rollsEmpty : Bool)
    (records : List LogRecord) (k : ℕ) :
    ∃ lost kept, Cut recordLine (handled settings records)
        (appended ((fileOps settings rollsEmpty records).take k)) (lost ++ kept) ∧
      (lost ++ kept ≠ [] → kept ≠ []) ∧
      readLog settings (after fresh ((fileOps settings rollsEmpty records).take k)) =
        kept.map fun record => some (payload record) := by
  obtain ⟨lost, kept, part, cut, latest, written, held⟩ :=
    cut_contents (fun record _ => recordLine_nonempty record)
      (List.take_prefix k (fileOps settings rollsEmpty records))
  refine ⟨lost, kept, cut, latest, ?_⟩
  have framed (record : LogRecord) (_ : record ∈ handled settings records) :=
    recordLine_framed record
  have early : appended ((fileOps settings rollsEmpty records).take k) <+:
      (handled settings records).flatMap recordLine := by
    rw [← appended_fileOps settings rollsEmpty records]
    exact appended_mono (List.take_prefix k _)
  have read := outputs_frames fun record member =>
    framed record (cut.order.subset (List.mem_append_right lost member))
  change readBack _ settings.backupCount = _ at held
  rw [readLog, held, outputs_append, read, cut.quiet framed early written, List.append_nil]

/-- With at least one backup, the files of a run never take more than the configured size and
one line each, however long the run. -/
theorem log_bounded (settings : LoggingSettings) (rollsEmpty : Bool) (records : List LogRecord)
    (many : 0 < settings.backupCount) {longest : ℕ}
    (short : ∀ record ∈ handled settings records, (recordLine record).length ≤ longest) (k : ℕ) :
    (∀ i, settings.backupCount < i →
      after fresh ((fileOps settings rollsEmpty records).take k) i = none) ∧
    (∀ i held, after fresh ((fileOps settings rollsEmpty records).take k) i = some held →
      held.length ≤ settings.maxBytes + longest) ∧
    (readBack (after fresh ((fileOps settings rollsEmpty records).take k))
      settings.backupCount).length ≤
        (settings.backupCount + 1) * (settings.maxBytes + longest) := by
  obtain ⟨beyond, fits⟩ :=
    cut_bounded short (List.take_prefix k (fileOps settings rollsEmpty records))
  exact ⟨beyond, fits many, readBack_length_le fun i held there => fits many i held there⟩

/-- A file of 100 bytes and one backup. -/
def tightSettings : LoggingSettings := ⟨true, true, 20, 100, 1, by decide⟩

def loaded : LogRecord :=
  ⟨20, "INFO".toList, "vad".toList, "t".toList, "한".toList, some "vad".toList,
    [("channel_id".toList, .str "rx".toList)], none⟩

theorem log_bounded_tight :
    (readBack (after fresh ((fileOps tightSettings false [loaded, loaded, loaded]).take 300)) 1).length
      ≤ 2 * (100 + 107) :=
  (log_bounded tightSettings false [loaded, loaded, loaded] (by decide) (by decide +kernel) 300).2.2

end EdgeVoice.LogFile
