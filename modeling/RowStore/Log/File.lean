import RowStore.Log.Buffer
import RowStore.Log.Record

/-!
# Log files

A log on a file. Records are appended through a writer that holds them back in a buffer, at most until the log is forced
or the writer is closed; opening the log again closes the writer before it.
-/

namespace RowStore

structure LogFile where
  stored : Option Bytes
  /-- The records that the open writer holds back, if there is a writer. -/
  writer : Option (List UpdateRecord)
deriving DecidableEq

namespace LogFile

def absent : LogFile := ⟨none, none⟩

def extend (log : LogFile) (rs : List UpdateRecord) : Bytes := log.stored.getD [] ++ rs.flatMap UpdateRecord.encode

def force (log : LogFile) : LogFile :=
  match log.writer with
  | some held => ⟨some (log.extend held), some []⟩
  | none => log

/-- Closes the writer; nothing stays held back. -/
def close (log : LogFile) : LogFile := { log.force with writer := none }

/-- Opens the log for appending and creates the file if needed. -/
def openWriter (log : LogFile) : LogFile := ⟨some (log.close.stored.getD []), some []⟩

def write (log : LogFile) (r : UpdateRecord) : LogFile :=
  match log.writer with
  | some held =>
    let pieces := WriteBuffer.push UpdateRecord.size held r
    ⟨some (log.extend pieces.1), some pieces.2⟩
  | none => log

def read (log : LogFile) : Except StorageError (List UpdateRecord) :=
  match log.stored with
  | none => .error (.io .noSuchFile)
  | some bs => UpdateRecord.readAll bs

def replace (log : LogFile) (bs : Bytes) : LogFile := { log with stored := some bs }

def cut (log : LogFile) (n : Nat) : LogFile :=
  { log with stored := log.stored.map fun bs => bs.take (bs.length - n) }

end LogFile

end RowStore
