import RowStore.Log.Buffer
import RowStore.Log.Record

/-!
# The store's log

The update records that the engine has written, how many of them a force has made durable, and how many of them are on
file if the log is kept there: its writer holds records back in a buffer.
-/

namespace RowStore

structure Log where
  records : List UpdateRecord
  /-- How many records, from the first on, are covered by a force. -/
  durable : Nat
  /-- How many records, from the first on, are no longer held back by the writer. -/
  letOut : Nat
  forces : Nat
deriving DecidableEq

namespace Log

def empty : Log := ⟨[], 0, 0, 0⟩

def held (log : Log) : List UpdateRecord := log.records.drop log.letOut

/-- Writes a record. It may be held back, and may drive out those that were held before it. -/
def append (log : Log) (r : UpdateRecord) : Log :=
  { log with
    records := log.records ++ [r]
    letOut := log.letOut + (WriteBuffer.push UpdateRecord.size log.held r).1.length }

def close (log : Log) : Log := { log with letOut := log.records.length }

def force (log : Log) : Log := { log.close with durable := log.records.length, forces := log.forces + 1 }

/-- The records that a reader of the log finds, if the log is on file. -/
def onFile (log : Log) : List UpdateRecord := log.records.take log.letOut

def recordsOf (log : Log) (txn : TxnId) : List UpdateRecord := log.records.filter fun r => r.txn = txn

end Log

end RowStore
