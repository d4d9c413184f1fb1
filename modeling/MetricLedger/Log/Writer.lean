import MetricLedger.Files.Tree

/-!
# Buffered writing

Bytes for a file are collected in a buffer and handed to the file when the buffer is full or is
flushed. The file takes what it is handed and refuses afterwards: a refusal comes to light with the
next bytes handed over or the next flush, and the refused bytes are lost.
-/

namespace MetricLedger.Log

/-- A buffer in front of a file. -/
structure Writer where
  place : Place
  buffered : List UInt8
  /-- Why the bytes handed over last were refused, as long as nobody was told. -/
  refused : Option FileFault

namespace Writer

/-- The bytes that the buffer has room for. -/
def capacity : Nat := 8192

def on (place : Place) : Writer := ⟨place, [], none⟩

/-- Hands bytes to the file, or tells of an earlier refusal instead. -/
def handOver (w : Writer) (files : Files) (bytes : List UInt8) :
    Except FileFault Unit × Writer × Files :=
  match w.refused with
  | some fault => (.error fault, { w with refused := none }, files)
  | none =>
      match files.append w.place bytes with
      | .ok files => (.ok (), w, files)
      | .error fault => (.ok (), { w with refused := some fault }, files)

/-- Hands the collected bytes to the file. -/
def empty (w : Writer) (files : Files) : Except FileFault Unit × Writer × Files :=
  if w.buffered.isEmpty then (.ok (), w, files)
  else
    match w.handOver files w.buffered with
    | (.ok _, w, files) => (.ok (), { w with buffered := [] }, files)
    | (.error fault, w, files) => (.error fault, w, files)

/-- Collects bytes, or hands them over if the buffer is too small for them. -/
def collect (w : Writer) (files : Files) (bytes : List UInt8) :
    Except FileFault Unit × Writer × Files :=
  if capacity ≤ bytes.length then w.handOver files bytes
  else (.ok (), { w with buffered := w.buffered ++ bytes }, files)

/-- Writes bytes; the buffer is emptied first if they do not fit in behind the others. -/
def write (w : Writer) (files : Files) (bytes : List UInt8) :
    Except FileFault Unit × Writer × Files :=
  if capacity < w.buffered.length + bytes.length then
    match w.empty files with
    | (.ok _, w, files) => w.collect files bytes
    | (.error fault, w, files) => (.error fault, w, files)
  else w.collect files bytes

/-- Hands over what is collected, and tells of a refusal. -/
def flush (w : Writer) (files : Files) : Except FileFault Unit × Writer × Files :=
  match w.empty files with
  | (.error fault, w, files) => (.error fault, w, files)
  | (.ok _, w, files) =>
      match w.refused with
      | some fault => (.error fault, { w with refused := none }, files)
      | none => (.ok (), w, files)

end Writer

end MetricLedger.Log
