import DelayedJobs.Job.Text
import DelayedJobs.Proofs.Job.Identifier
import DelayedJobs.Proofs.Json.Values
import DelayedJobs.Proofs.Time.TimestampText

/-!
Jobs that are written as text are read back as they were, and a job that was read from some other
text of it, with its members in another order or its times at another offset, has one text from then
on.
-/

namespace DelayedJobs
open Json Source

section Parts
variable {depth : Nat}

theorem Uuid.tells (u : Uuid) : Tells (Json.string u.toString).text Uuid.reader u :=
  tells_textOf (parse?_toString u)

theorem Timestamp.tells (t : Timestamp) : Tells t.toJson.text Timestamp.reader t :=
  tells_textOf (parse?_toText t)

theorem JobStatus.tells (s : JobStatus) :
    Tells (Json.string s.name).text (Reader.choice JobStatus.ofName?) s := by
  refine ⟨_, scans_string _, fun depth => ?_⟩
  rw [Reader.choice, ofName?_name]
  rfl

theorem tells_owner (owner : Option WorkerId) :
    Tells (owner.elim Json.null fun w => Json.string w.id.toString).text
      (Reader.optional Uuid.reader) (owner.map WorkerId.id) := by
  cases owner with
  | none =>
    refine ⟨.null, ?_, fun _ => rfl⟩
    rw [Option.elim, text]
    exact scans_null
  | some w =>
    refine ⟨.string (some w.id.toString), scans_string _, fun depth => ?_⟩
    have reads : Uuid.reader depth (.string (some w.id.toString)) = .ok w.id :=
      Reader.textOf_of_eq_some w.id.parse?_toString
    rw [Reader.optional, reads]
    · rfl
    · intro null
      cases null

theorem Payload.scans_text {p : Payload} (h : p.data.Within ReadsBack depth) :
    ∃ v, Scans p.toJson.text v ∧ Payload.record.read (depth + 1) v = .ok p := by
  obtain ⟨data, scans, reads⟩ := h.scans
  have items : Record.readItems depth record.defaults .closed record.fields
      [.string (some p.kind), data] record.start = .ok ([], p) := by
    have kind : Reader.text depth (.string (some p.kind)) = .ok p.kind := rfl
    simp only [record]
    rw [Record.readItems_put kind, Record.readItems_put reads]
    rfl
  exact ⟨_, scans_object (.cons (scans_string p.kind) (.cons scans .nil)),
    Record.read_object_of_readItems (by decide) rfl items⟩

theorem JobText.scans_text {t : JobText} (h : t.payload.data.Within ReadsBack depth) :
    ∃ v, Scans t.toJson.text v ∧ JobText.record.read (depth + 2) v = .ok t := by
  obtain ⟨id, idText, ids⟩ := t.id.tells
  obtain ⟨payload, payloadText, payloads⟩ := Payload.scans_text h
  obtain ⟨due, dueText, dues⟩ := t.scheduledFor.tells
  obtain ⟨visible, visibleText, visibles⟩ := t.invisibleUntil.tells
  have word : t.attempt.toNat < Word.count32 := t.attempt.toNat_lt_size
  obtain ⟨count, countText, counts⟩ := tells_natural word (by decide)
  obtain ⟨owner, ownerText, owners⟩ := tells_owner t.claimedBy
  obtain ⟨status, statusText, statuses⟩ := t.status.tells
  have items : Record.readItems (depth + 1) record.defaults .closed record.fields
      [id, payload, due, visible, count, owner, status] record.start = .ok ([], t) := by
    have owned : (t.claimedBy.map WorkerId.id).map WorkerId.mk = t.claimedBy := by
      cases t.claimedBy <;> rfl
    simp only [record]
    rw [Record.readItems_put (ids _), Record.readItems_put payloads, Record.readItems_put (dues _),
      Record.readItems_put (visibles _), Record.readItems_put (counts _),
      Record.readItems_put (owners _), Record.readItems_put (statuses _), owned, UInt32.ofNat_toNat]
    rfl
  refine ⟨_, scans_object (.cons idText (.cons payloadText (.cons dueText (.cons visibleText
    (.cons countText (.cons ownerText (.cons statusText .nil))))))), ?_⟩
  exact Record.read_object_of_readItems (by decide) rfl items

end Parts

section Read
variable {depth : Nat} {v : Source}

theorem Payload.within_of_read {p : Payload} (reads : Payload.record.read (depth + 1) v = .ok p) :
    p.data.Within Legible depth := by
  refine Record.of_read (fun p => p.data.Within Legible depth) .null ?_ reads
  simp only [record, List.forall_mem_cons]
  refine ⟨fun s set read p kept => ?_, fun s set read p kept => ?_, List.forall_mem_nil _⟩
  · obtain ⟨kind, -, rfl⟩ := Reader.map_eq_ok_iff.mp read
    exact kept
  · obtain ⟨data, value, rfl⟩ := Reader.map_eq_ok_iff.mp read
    exact Json.within_of_read value

theorem JobText.within_of_read {t : JobText} (reads : JobText.record.read (depth + 2) v = .ok t) :
    t.payload.data.Within Legible depth := by
  refine Record.of_read (fun t => t.payload.data.Within Legible depth) .null ?_ reads
  simp only [record, List.forall_mem_cons]
  refine ⟨fun s set read t kept => ?id, fun s set read t kept => ?payload,
    fun s set read t kept => ?due, fun s set read t kept => ?visible,
    fun s set read t kept => ?attempt, fun s set read t kept => ?owner,
    fun s set read t kept => ?status, List.forall_mem_nil _⟩
  case payload =>
    obtain ⟨p, reads, rfl⟩ := Reader.map_eq_ok_iff.mp read
    exact Payload.within_of_read reads
  all_goals
    obtain ⟨_, -, rfl⟩ := Reader.map_eq_ok_iff.mp read
    exact kept

end Read

namespace JobText

/-- A job that a text can hold: the data is nested at most 125 deep. -/
def Sound (t : JobText) : Prop := t.payload.data.Within (·.isFinite = true) 125

theorem parse_print {t : JobText} (sound : t.Sound) (back : t.payload.data.RealsReadBack) :
    parse t.print = .ok t := by
  obtain ⟨v, scans, reads⟩ := scans_text (Json.Within.of_reals sound back)
  rw [parse, print, Json.print, scans.run]
  exact reads

theorem sound_of_parse {s : String} {t : JobText} (parsed : parse s = .ok t) : t.Sound := by
  obtain ⟨reads, -⟩ := run_eq_ok_iff.mp parsed
  exact (within_of_read reads).of_reals fun x _ legible => legible.isFinite

/-- A job comes back from its text as it was: with any identifier and status, with an owner or none,
with instants to the nanosecond, leap seconds among them, and with all its data. Whatever other text
a job is read from, it comes back from its own text, and that is the same again. -/
theorem kept_by_its_text :
    (∀ t : JobText, t.Sound → t.payload.data.RealsReadBack → parse t.print = .ok t) ∧
    (∀ j : Job, (ofJob j).Sound → j.payload.data.RealsReadBack → Job.parse j.print = .ok j) ∧
    (∀ (s : String) (t : JobText), parse s = .ok t → t.payload.data.RealsReadBack →
      parse t.print = .ok t ∧ ∀ u, parse t.print = .ok u → u.print = t.print) ∧
    ∀ (s : String) (j : Job), Job.parse s = .ok j → j.payload.data.RealsReadBack →
      Job.parse j.print = .ok j ∧ ∀ k, Job.parse j.print = .ok k → k.print = j.print := by
  have jobs (j : Job) (sound : (ofJob j).Sound) (back : j.payload.data.RealsReadBack) :
      Job.parse j.print = .ok j := by
    rw [Job.parse, Job.print, parse_print sound back]
    exact congrArg Except.ok (job_ofJob j)
  refine ⟨fun t => parse_print, jobs, ?_, ?_⟩
  · intro s t parsed back
    have again := parse_print (sound_of_parse parsed) back
    refine ⟨again, fun u same => ?_⟩
    rw [again] at same
    exact congrArg print (Except.ok.inj same).symm
  · intro s j parsed back
    cases read : parse s with
    | error f =>
      rw [Job.parse, read] at parsed
      cases parsed
    | ok t =>
      rw [Job.parse, read] at parsed
      cases parsed
      have sound := sound_of_parse read
      have again := jobs t.job sound back
      refine ⟨again, fun k same => ?_⟩
      rw [again] at same
      exact congrArg Job.print (Except.ok.inj same).symm

def lastJob : JobText where
  id := .ofNat 0x6BA7B8109DAD11D180B400C04FD430C8
  payload := ⟨"mail", .object [("a", .string "é"),
    ("b", .array [.number (.real 1.5), .ofInt (-7)])]⟩
  scheduledFor := ⟨⟨1483228799500000000, by decide, by decide⟩, true, by decide⟩
  invisibleUntil := .ofInstant .latest
  attempt := 4294967295
  claimedBy := none
  status := .failed

/-- Another text of that job: the members in another order, one of them unknown, the identifier in
braces, an escaped letter, a time at an offset and with a fraction of two digits. -/
def foreignText : List Char :=
  "\x7b\"status\":\x7b\"failed\":null\x7d,\"note\":[[]], ".toList ++
  "\"attempt\":4294967295,\"claimed_by\":null,".toList ++
  "\"payload\":\x7b\"data\":\x7b\"b\":[1.5,-7],".toList ++
  "\"a\":\"\\u00e9\"\x7d,\"kind\":\"mail\"\x7d,".toList ++
  "\"id\":\"\x7b6BA7B810-9DAD-11D1-80B4-00C04FD430C8\x7d\",".toList ++
  "\"scheduled_for\":\"2017-01-01t01:59:60.50+02:00\",".toList ++
  "\"invisible_until\":\"+262142-12-31T23:59:59.999999999Z\"\x7d".toList

theorem parse_foreignText : ∃ t, parse (.ofList foreignText) = .ok t ∧
    t.toJson.text = lastJob.toJson.text ∧ t.payload.data.RealsReadBack := by
  have checked : (scan (3 * foreignText.length + 3) foreignText).2 = some [] ∧
      ((record.read depthLimit
        (scan (3 * foreignText.length + 3) foreignText).1).toOption.any fun t =>
        t.toJson.text = lastJob.toJson.text ∧ t.payload.data.RealsReadBack) = true := by
    decide +kernel
  generalize scanning : scan (3 * foreignText.length + 3) foreignText = scanned at checked
  obtain ⟨v, rest⟩ := scanned
  obtain ⟨rfl, found⟩ := checked
  have scans : Scans foreignText v := .of_scan scanning rfl
  cases read : record.read depthLimit v with
  | error e =>
    rw [read, Except.toOption, Option.any_none] at found
    cases found
  | ok t =>
    rw [read, Except.toOption, Option.any_some] at found
    exact ⟨t, (scans.run _).trans read, of_decide_eq_true found⟩

theorem lastJob_text :
    lastJob.Sound ∧ lastJob.payload.data.RealsReadBack ∧
    parse lastJob.print = .ok lastJob ∧
    Job.parse lastJob.job.print = .ok lastJob.job ∧
    parse (.ofList foreignText) = .ok lastJob ∧
    (∀ u, parse lastJob.print = .ok u → u.print = lastJob.print) := by
  have sound : lastJob.Sound := by
    refine .object (by decide) ?_
    simp only [List.forall_mem_cons]
    refine ⟨.string _, .array ?_, List.forall_mem_nil _⟩
    simp only [List.forall_mem_cons]
    exact ⟨.real (by decide), .int (by decide) (by decide), List.forall_mem_nil _⟩
  have back : lastJob.payload.data.RealsReadBack := by decide +kernel
  obtain ⟨written, jobs, texts, -⟩ := kept_by_its_text
  obtain ⟨t, parsed, same, backs⟩ := parse_foreignText
  obtain ⟨again, fixed⟩ := texts _ t parsed backs
  have printed : t.print = lastJob.print := congrArg String.ofList same
  have own := written lastJob sound back
  have equal : t = lastJob := by
    rw [printed, own] at again
    exact (Except.ok.inj again).symm
  rw [equal] at parsed fixed
  exact ⟨sound, back, own, jobs lastJob.job sound back, parsed, fixed⟩

end JobText

end DelayedJobs
