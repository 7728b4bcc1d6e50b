import Postings.Archive.Basic
import Postings.Density
import Postings.Work.Queue

/-!
# Encoding an archive

Every list is a job of the construction queue: preparing it writes the list on
its own, and committing it appends the record.  A list whose universe does not
fit its field is refused before it becomes a job.
-/

namespace Postings

/-- The average size of a value. -/
def Archive.bitsPerPosting (archive : Archive) : Float :=
  Postings.bitsPerPosting archive.bits.size archive.postings

namespace Archive

/-- A list that waits for its encoding. -/
structure Entry where
  /-- The values. -/
  values : List Nat
  /-- Their universe. -/
  univ : Nat

/-- A list that is encoded. -/
structure Encoded extends Entry where
  /-- Its stored form. -/
  payload : BitString

/-- The record of an encoded list, at a position. -/
def Encoded.record (entry : Encoded) (pos : Nat) : BitString :=
  let header := BitString.empty
    |>.appendBits (pos + headerBits + entry.payload.size) 64
    |>.appendBits entry.univ 32
    |>.appendBits entry.values.length 32
  header ++ entry.payload

/-- Adds the record of an encoded list. -/
def append (archive : Archive) (entry : Encoded) : Archive :=
  { archive with
    bits := archive.bits ++ entry.record archive.bits.size
    lists := archive.lists + 1
    postings := archive.postings + entry.values.length }

/-- How lists are encoded and appended. -/
def work (codec : Codec) (kind : ListKind) (params : Params) (config : BuildConfig) :
    Work Entry Encoded Archive where
  prepare entry :=
    match (kind.write codec entry.values entry.univ params config).runFrom .empty with
    | (.ok (), payload) => .ok { entry with payload }
    | (.error e, _) => .error e
  commit entry := modify (append · entry)

/-- The largest universe that fits its field. -/
def maxUniv : Nat := 2 ^ 32 - 1

/-- The list at a place of the input, as a job. -/
def entryOf (codec : Codec) (kind : ListKind) (place : Nat) (values : List Nat) :
    Except Error Entry := do
  if values.isEmpty then
    throw (.invalidArgument "lists" s!"list {place} is empty")
  let univ := kind.univOf values
  if maxUniv < univ then
    throw (.codecOverflow codec.name univ)
  return ⟨values, univ⟩

/-- Feeds lists to a queue, the first of which is at the given place. -/
def feed (codec : Codec) (kind : ListKind) (w : Work Entry Encoded Archive) :
    (place : Nat) → List (List Nat) → Attempt (Queue Entry Archive) Unit
  | _, [] => return
  | place, values :: lists => do
      let entry ← entryOf codec kind place values
      Queue.add w entry values.length
      feed codec kind w (place + 1) lists

/-- The archive of some lists. -/
def encode (codec : Codec) (kind : ListKind) (lists : List (List Nat)) (params : Params)
    (config : BuildConfig) : Except Error Archive := do
  params.validate
  config.validate
  let w := work codec kind params config
  let target : Archive := { kind, params, bits := .empty, lists := 0, postings := 0 }
  let queue := Queue.start target config.batchWork config.workers
  match Attempt.runFrom (do feed codec kind w 0 lists; Queue.complete w) queue with
  | (.ok (), queue) => return queue.target
  | (.error e, _) => throw e

end Archive
end Postings
