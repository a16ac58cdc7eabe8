import RowStore.Log.Basic
import RowStore.Log.File
import RowStore.Proofs.RecordCodec

/-!
# Sessions with a log file

A session opens the log, writes records and forces them as it likes, and ends by a force or by closing the log. What has
been written is at any time the contents of the file followed by what the writer holds back, so every call adds the bytes
of its record behind everything before it, whether or not the buffer lets some of it out. After a session nothing is held
back, and a reader finds what a log in memory holds after the same calls.
-/

namespace RowStore

/-- A call on a log that is open. -/
inductive LogCall where
  | write (r : UpdateRecord)
  | force
deriving DecidableEq

/-- How a session with a log ends. -/
inductive LogEnding where
  | force
  | close
deriving DecidableEq

/-- What is done with a log from opening it on. -/
structure LogSession where
  calls : List LogCall
  ending : LogEnding
deriving DecidableEq

def LogCall.records : LogCall → List UpdateRecord
  | .write r => [r]
  | .force => []

def LogSession.records (s : LogSession) : List UpdateRecord := s.calls.flatMap LogCall.records

namespace Log

def call (log : Log) : LogCall → Log
  | .write r => log.append r
  | .force => log.force

/-- A log in memory after a session. It need not be opened, and closing it does nothing. -/
def session (log : Log) (s : LogSession) : Log :=
  match s.ending with
  | .force => (s.calls.foldl call log).force
  | .close => s.calls.foldl call log

theorem records_call (log : Log) (c : LogCall) : (log.call c).records = log.records ++ c.records := by
  cases c with
  | write r => rfl
  | force => exact (List.append_nil _).symm

theorem records_calls (calls : List LogCall) (log : Log) :
    (calls.foldl call log).records = log.records ++ calls.flatMap LogCall.records := by
  induction calls generalizing log with
  | nil => exact (List.append_nil _).symm
  | cons c calls ih => rw [List.foldl_cons, ih, records_call, List.flatMap_cons, List.append_assoc]

theorem records_session (log : Log) (s : LogSession) : (log.session s).records = log.records ++ s.records := by
  unfold session
  split
  · exact records_calls s.calls log
  · exact records_calls s.calls log

/-- A log in memory holds the records of all sessions in order. -/
theorem records_sessions (sessions : List LogSession) (log : Log) :
    (sessions.foldl session log).records = log.records ++ sessions.flatMap LogSession.records := by
  induction sessions generalizing log with
  | nil => exact (List.append_nil _).symm
  | cons s sessions ih => rw [List.foldl_cons, ih, records_session, List.flatMap_cons, List.append_assoc]

end Log

namespace LogFile

def call (log : LogFile) : LogCall → LogFile
  | .write r => log.write r
  | .force => log.force

def finish (log : LogFile) : LogEnding → LogFile
  | .force => log.force
  | .close => log.close

def session (log : LogFile) (s : LogSession) : LogFile := (s.calls.foldl call log.openWriter).finish s.ending

/-- Everything that was written: the contents of the file, and behind them what the writer holds back. -/
def written (log : LogFile) : Bytes := log.extend (log.writer.getD [])

def Settled (log : LogFile) : Prop := log.stored = some log.written

theorem written_force (log : LogFile) : log.force.written = log.written := by
  obtain ⟨stored, writer⟩ := log
  cases writer with
  | none => rfl
  | some held => exact List.append_nil _

theorem written_close (log : LogFile) : log.close.written = log.written := by
  obtain ⟨stored, writer⟩ := log
  cases writer with
  | none => rfl
  | some held => exact List.append_nil _

theorem written_openWriter (log : LogFile) : log.openWriter.written = log.written := by
  rw [← written_close log]
  rfl

theorem settled_force {log : LogFile} (h : log.writer.isSome) : log.force.Settled := by
  obtain ⟨stored, _ | held⟩ := log
  · cases h
  · exact congrArg some (List.append_nil _).symm

theorem settled_close {log : LogFile} (h : log.writer.isSome) : log.close.Settled := by
  obtain ⟨stored, _ | held⟩ := log
  · cases h
  · exact congrArg some (List.append_nil _).symm

/-- A call on an open log adds the bytes of its records to everything written, and the log stays open. -/
theorem written_call {log : LogFile} (h : log.writer.isSome) (c : LogCall) :
    (log.call c).writer.isSome ∧ (log.call c).written = log.written ++ c.records.flatMap UpdateRecord.encode := by
  obtain ⟨stored, _ | held⟩ := log
  · cases h
  cases c with
  | force => exact ⟨rfl, (written_force _).trans (List.append_nil _).symm⟩
  | write r =>
    refine ⟨rfl, ?_⟩
    -- What the buffer lets out and what it keeps are together what it held and the new record.
    have hpieces := WriteBuffer.push_append UpdateRecord.size held r
    calc stored.getD [] ++ (WriteBuffer.push UpdateRecord.size held r).1.flatMap UpdateRecord.encode ++
          (WriteBuffer.push UpdateRecord.size held r).2.flatMap UpdateRecord.encode
        = stored.getD [] ++ (held ++ [r]).flatMap UpdateRecord.encode := by
          rw [← hpieces, List.flatMap_append, List.append_assoc]
      _ = stored.getD [] ++ held.flatMap UpdateRecord.encode ++ [r].flatMap UpdateRecord.encode := by
          rw [List.flatMap_append, List.append_assoc]

theorem written_calls (calls : List LogCall) {log : LogFile} (h : log.writer.isSome) :
    (calls.foldl call log).writer.isSome ∧
      (calls.foldl call log).written =
        log.written ++ (calls.flatMap LogCall.records).flatMap UpdateRecord.encode := by
  induction calls generalizing log with
  | nil => exact ⟨h, (List.append_nil _).symm⟩
  | cons c calls ih =>
    obtain ⟨hopen, hw⟩ := written_call h c
    obtain ⟨hopen', hw'⟩ := ih hopen
    refine ⟨hopen', ?_⟩
    rw [List.foldl_cons, hw', hw, List.flatMap_cons, List.flatMap_append, List.append_assoc]

/-- A session adds the bytes of its records to everything written and leaves all of it on file. -/
theorem written_session (log : LogFile) (s : LogSession) :
    (log.session s).written = log.written ++ s.records.flatMap UpdateRecord.encode ∧ (log.session s).Settled := by
  have hopened : log.openWriter.writer.isSome := rfl
  obtain ⟨hopen, hw⟩ := written_calls s.calls hopened
  rw [written_openWriter] at hw
  unfold session
  cases s.ending with
  | force => exact ⟨(written_force _).trans hw, settled_force hopen⟩
  | close => exact ⟨(written_close _).trans hw, settled_close hopen⟩

theorem written_sessions (sessions : List LogSession) (log : LogFile) :
    (sessions.foldl session log).written =
      log.written ++ (sessions.flatMap LogSession.records).flatMap UpdateRecord.encode := by
  induction sessions generalizing log with
  | nil => exact (List.append_nil _).symm
  | cons s sessions ih =>
    rw [List.foldl_cons, ih, (written_session log s).1, List.flatMap_cons, List.flatMap_append, List.append_assoc]

theorem settled_sessions {sessions : List LogSession} {log : LogFile} (h : log.Settled ∨ sessions ≠ []) :
    (sessions.foldl session log).Settled := by
  obtain rfl | ⟨before, s, rfl⟩ := sessions.eq_nil_or_concat
  · exact h.resolve_right (absurd rfl)
  · rw [List.concat_eq_append, List.foldl_append]
    exact (written_session _ s).2

/-- After any sessions with a log that was empty before, a reader finds exactly the records that were written, in order,
and these are what a log in memory holds after the same calls. A log that did not exist is there after one session. -/
theorem read_sessions {log : LogFile} {sessions : List LogSession} (hempty : log.written = [])
    (hthere : log.stored.isSome ∨ sessions ≠ [])
    (hs : ∀ r ∈ sessions.flatMap LogSession.records, r.Storable) :
    (sessions.foldl session log).read = .ok (sessions.foldl Log.session Log.empty).records ∧
      (sessions.foldl Log.session Log.empty).records = sessions.flatMap LogSession.records := by
  have hrecords := Log.records_sessions sessions Log.empty
  -- What an empty log has on file, if it is there, is all of the nothing that was written.
  have hsettled : log.Settled ∨ sessions ≠ [] := by
    refine hthere.imp_left fun h => ?_
    obtain ⟨bs, hbs⟩ := Option.isSome_iff_exists.mp h
    have hnil : log.stored.getD [] = [] := (List.append_eq_nil_iff.mp hempty).1
    rw [hbs, Option.getD_some] at hnil
    rw [Settled, hempty, hbs, hnil]
  refine ⟨?_, hrecords⟩
  rw [read, settled_sessions hsettled, hrecords, written_sessions, hempty]
  exact UpdateRecord.readAll_flatMap hs

/-- A session that forces midway, writes a record without images and closes the log, and one that opens it again. -/
theorem read_closed_then_forced :
    let first : UpdateRecord := ⟨⟨7⟩, ⟨⟨3⟩, 9⟩, [1, 2], [3]⟩
    let second : UpdateRecord := ⟨⟨2 ^ 64 - 1⟩, ⟨⟨3⟩, 2 ^ 32 - 1⟩, [], []⟩
    let third : UpdateRecord := ⟨⟨7⟩, ⟨⟨4⟩, 0⟩, [], [255]⟩
    ([⟨[.write first, .force, .write second], .close⟩, ⟨[.write third], .force⟩].foldl session absent).read =
      .ok [first, second, third] := by
  intro first second third
  have hempty : absent.written = [] := rfl
  refine (read_sessions hempty (.inr (List.cons_ne_nil _ _)) ?_).1
  have hwritten : ∀ r ∈ [first, second, third], r.Storable := by
    intro r hr
    obtain rfl | rfl | rfl : r = first ∨ r = second ∨ r = third := by simpa using hr
    all_goals exact ⟨by decide, by decide, by decide, by decide, by decide⟩
  exact hwritten

end LogFile

end RowStore
