import Mathlib
import MetricLedger.Proofs.Files.Reopen
import MetricLedger.Proofs.Log.Lines

/-!
# Records as bytes and back

Records are put onto a buffer one after the other. Main statement: `readFile_encodeEach`, a file that
holds the buffer is read as the records that were not refused, in order and without any change.
-/

namespace MetricLedger.Log

/-- Puts records onto a buffer one after the other, each onto the buffer that the one before it has
left: what came of each of them, and the buffer after the last one. -/
def encodeEach (buffer : List UInt8) : List Record → List (Except Failure Unit) × List UInt8
  | [] => ([], buffer)
  | r :: records =>
      match r.encodeInto buffer with
      | .ok buffer =>
          let (results, buffer) := encodeEach buffer records
          (.ok () :: results, buffer)
      | .error fault =>
          let (results, buffer) := encodeEach fault.buffer records
          (.error fault :: results, buffer)

theorem encodeEach_eq (buffer : List UInt8) (records : List Record) :
    ∃ results, encodeEach buffer records = (results, buffer ++ linesOf records) ∧
      List.Forall₂ (fun r result => result = .ok () ↔ r.isEncodable = true) records results := by
  induction records generalizing buffer with
  | nil => exact ⟨[], by rw [encodeEach, linesOf_nil, List.append_nil], .nil⟩
  | cons r records ih =>
      have hlines : linesOf (r :: records) = linesOf [r] ++ linesOf records :=
        linesOf_append [r] records
      cases hr : r.isEncodable with
      | true =>
          obtain ⟨results, hrest, hresults⟩ := ih (buffer ++ r.lineBytes)
          refine ⟨.ok () :: results, ?_, .cons (by simp [hr]) hresults⟩
          rw [hlines, linesOf_singleton hr, ← List.append_assoc]
          simp only [encodeEach, Record.encodeInto_of_isEncodable hr, hrest]
      | false =>
          obtain ⟨results, hrest, hresults⟩ := ih buffer
          obtain ⟨cause, hcause⟩ := Record.encodeInto_of_not_isEncodable hr buffer
          refine ⟨.error cause :: results, ?_, .cons (by simp [hr]) hresults⟩
          rw [hlines, linesOf_singleton_of_not hr, List.nil_append]
          simp only [encodeEach, hcause, hrest]

/-- The line of a record has one line break, at its end. -/
theorem count_lineBytes (r : Record) : r.lineBytes.count lineEnd = 1 := by
  have hnone : lineEnd ∉ Text.utf8Encode r.text :=
    Text.not_mem_utf8Encode (n := 10) (by decide) r.newline_not_mem_text
  rw [lineBytes_eq, List.count_append, List.count_eq_zero_of_not_mem hnone]
  rfl

/-- A file that can be read is read as a log. -/
theorem readFile_of_read {files : Files} {path : String} {content : List UInt8}
    (h : files.read path = .ok content) : readFile files path = readContent path content := by
  unfold Files.read at h
  unfold readFile
  cases hfind : files.find path with
  | error fault =>
      rw [hfind] at h
      cases h
  | ok found =>
      rw [hfind] at h
      have hcontent : files.contentAt found.1 = .ok content := h
      simp only [hcontent]

/-- Records are put onto a buffer behind what is there, each with a line that does not depend on the
others and has one line break, at its end; only a record whose number is not finite is refused, and
the buffer is then left as it was. A file with these lines is read as the records that were not
refused, so it is read as all of them if every number is finite. -/
theorem readFile_encodeEach (records : List Record) :
    (∀ buffer, ∃ results, encodeEach buffer records =
        (results, buffer ++ ((encodable records).map Record.lineBytes).flatten) ∧
      List.Forall₂ (fun r result => result = .ok () ↔ r.isEncodable = true) records results) ∧
    (∀ r : Record, r.lineBytes.count lineEnd = 1 ∧ r.lineBytes.getLast? = some lineEnd) ∧
    (∀ (r : Record) buffer,
      (r.isEncodable = true → r.encodeInto buffer = .ok (buffer ++ r.lineBytes)) ∧
      (r.isEncodable = false → ∃ cause, r.encodeInto buffer = .error ⟨cause, buffer⟩)) ∧
    (∀ files path, files.read path = .ok (encodeEach [] records).2 →
      readFile files path = .ok (encodable records)) ∧
    ((∀ r ∈ records, r.isEncodable = true) →
      encodable records = records ∧
        ∀ buffer, ∀ result ∈ (encodeEach buffer records).1, result = .ok ()) := by
  refine ⟨fun buffer => ?_, fun r => ⟨count_lineBytes r, ?_⟩, fun r buffer =>
      ⟨fun hr => Record.encodeInto_of_isEncodable hr buffer,
        fun hr => Record.encodeInto_of_not_isEncodable hr buffer⟩,
    fun files path hfile => ?_, fun hall => ⟨List.filter_eq_self.2 hall, fun buffer => ?_⟩⟩
  · rw [← List.flatMap_def]
    exact encodeEach_eq buffer records
  · rw [lineBytes_eq, List.getLast?_append_of_ne_nil _ (by simp)]
    rfl
  · obtain ⟨results, hencode, -⟩ := encodeEach_eq [] records
    rw [hencode, List.nil_append] at hfile
    rw [readFile_of_read hfile, readContent]
    exact readLines_linesOf path 1 records
  · obtain ⟨results, hencode, hresults⟩ := encodeEach_eq buffer records
    rw [hencode]
    intro result hresult
    obtain ⟨i, hi, rfl⟩ := List.getElem_of_mem hresult
    have hr : i < records.length := hresults.length_eq ▸ hi
    exact (hresults.get hr hi).2 (hall _ (List.getElem_mem hr))

/-- A counter and two gauges with names and numbers that need care; the number of the second one is
not finite. -/
def carefulRecords : List Record := [
  .gauge "a\n\"b\\" ⟨0x8000000000000000⟩,
  .gauge "lost" ⟨0x7ff8000000000000⟩,
  .counter "" (-9223372036854775808)]

/-- The second of these records leaves a buffer that is not empty as it was, and a file with all
three is read as the first and the last of them. -/
theorem readFile_encodeEach_carefulRecords :
    (∃ cause, (Record.gauge "lost" ⟨0x7ff8000000000000⟩).encodeInto (Text.utf8Bytes "kept") =
      .error ⟨cause, Text.utf8Bytes "kept"⟩) ∧
    ∃ files : Files, files.read "m" = .ok (encodeEach [] carefulRecords).2 ∧
      readFile files "m" = .ok [
        .gauge "a\n\"b\\" ⟨0x8000000000000000⟩, .counter "" (-9223372036854775808)] := by
  have hfile (content : List UInt8) :
      (Files.empty.put ["work", "m"] (.file content)).read "m" = .ok content := by cbv
  obtain ⟨-, -, hencode, hreads, -⟩ := readFile_encodeEach carefulRecords
  exact ⟨(hencode _ _).2 (by decide), _, hfile _, hreads _ "m" (hfile _)⟩

end MetricLedger.Log
