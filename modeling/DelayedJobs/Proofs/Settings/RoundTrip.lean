import DelayedJobs.Proofs.Json.Printed
import DelayedJobs.Settings.Text
import Mathlib.Data.List.Perm.Basic

/-!
Settings that are written as text are read back, in whole milliseconds. The order of the members
does not matter, nor do members with other names; fields that are left out get their defaults.
-/

namespace DelayedJobs

def Duration.wholeMillis (d : Duration) : Duration :=
  .ofMillis (min d.millis (Word.count64 - 1))

theorem Duration.nanos_wholeMillis (d : Duration) :
    d.wholeMillis.nanos = min d.millis (Word.count64 - 1) * 1000000 := by
  simp only [wholeMillis, ofMillis, nanos_ofNanos, maxNanos, Word.count64]
  omega

theorem Duration.millis_wholeMillis (d : Duration) :
    d.wholeMillis.millis = min d.millis (Word.count64 - 1) := by
  rw [millis, nanos_wholeMillis, Nat.mul_div_cancel _ (by decide)]

theorem Duration.wholeMillis_eq_self_iff {d : Duration} :
    d.wholeMillis = d ↔ d.nanos % 1000000 = 0 ∧ d.millis < Word.count64 := by
  rw [Duration.ext_iff, nanos_wholeMillis]
  simp only [millis, Word.count64]
  omega

theorem Duration.wholeMillis_wholeMillis (d : Duration) :
    d.wholeMillis.wholeMillis = d.wholeMillis := by
  rw [wholeMillis, millis_wholeMillis, min_assoc, min_self]
  rfl

namespace Settings
open Json Source

theorem millisJson_wholeMillis (d : Duration) : millisJson d.wholeMillis = millisJson d := by
  rw [millisJson, Duration.millis_wholeMillis, min_assoc, min_self]
  rfl

def wholeMillis (c : Settings) : Settings where
  workerCount := c.workerCount
  pollInterval := c.pollInterval.wholeMillis
  keepAliveInterval := c.keepAliveInterval.wholeMillis
  keepAlivePeriod := c.keepAlivePeriod.wholeMillis
  keepAliveRetryInterval := c.keepAliveRetryInterval.wholeMillis
  retryInterval := c.retryInterval.wholeMillis
  retryFactor := c.retryFactor
  retryLimit := c.retryLimit
  maxRetryInterval := c.maxRetryInterval.wholeMillis
  pruneInterval := c.pruneInterval.wholeMillis
  keepFinished := c.keepFinished.wholeMillis

def durations (c : Settings) : List Duration :=
  [c.pollInterval, c.keepAliveInterval, c.keepAlivePeriod, c.keepAliveRetryInterval,
    c.retryInterval, c.maxRetryInterval, c.pruneInterval, c.keepFinished]

/-- The fields with these names as in `c`, the others at their defaults. -/
def taking (names : List String) (c : Settings) : Settings :=
  let d : Settings := {}
  { workerCount := if "worker_count" ∈ names then c.workerCount else d.workerCount
    pollInterval := if "poll_interval" ∈ names then c.pollInterval else d.pollInterval
    keepAliveInterval :=
      if "keep_alive_interval" ∈ names then c.keepAliveInterval else d.keepAliveInterval
    keepAlivePeriod := if "keep_alive_period" ∈ names then c.keepAlivePeriod else d.keepAlivePeriod
    keepAliveRetryInterval :=
      if "keep_alive_retry_interval" ∈ names then c.keepAliveRetryInterval
      else d.keepAliveRetryInterval
    retryInterval := if "retry_interval" ∈ names then c.retryInterval else d.retryInterval
    retryFactor := if "retry_factor" ∈ names then c.retryFactor else d.retryFactor
    retryLimit := if "retry_limit" ∈ names then c.retryLimit else d.retryLimit
    maxRetryInterval :=
      if "max_retry_interval" ∈ names then c.maxRetryInterval else d.maxRetryInterval
    pruneInterval := if "prune_interval" ∈ names then c.pruneInterval else d.pruneInterval
    keepFinished := if "keep_finished" ∈ names then c.keepFinished else d.keepFinished }

theorem taking_nil (c : Settings) : c.taking [] = {} := by
  simp [taking]

theorem taking_congr {names others : List String} (c : Settings)
    (same : ∀ name, name ∈ names ↔ name ∈ others) : c.taking names = c.taking others := by
  simp only [taking, same]

theorem taking_all (c : Settings) : c.taking (c.members.map Prod.fst) = c := by
  simp [taking, members]

def Holds (c : Settings) (f : RecordField Settings) (v : Source) : Prop :=
  ∀ depth, ∃ set, f.read depth v = .ok set ∧
    ∀ names, set (c.taking names) = c.taking (f.name :: names)

variable {c : Settings}

section Fields
variable {name : String}

theorem holds_natural {n bound : Nat} {put : Nat → Settings → Settings} (fits : n < bound)
    (word : bound ≤ Word.count64)
    (puts : ∀ names, put n (c.taking names) = c.taking (name :: names)) :
    ∃ v, Scans (Json.ofNat n).text v ∧
      c.Holds { name, read := (Reader.natural bound).map put, required := false } v := by
  obtain ⟨v, scans, reads⟩ := tells_natural fits word
  exact ⟨v, scans, fun depth => ⟨put n, Reader.map_of_ok put (reads depth), puts⟩⟩

theorem holds_millis {d : Duration} {put : Duration → Settings → Settings}
    (whole : d.wholeMillis = d)
    (puts : ∀ names, put d (c.taking names) = c.taking (name :: names)) :
    ∃ v, Scans (millisJson d).text v ∧
      c.Holds { name, read := millisReader.map put, required := false } v := by
  rw [millisReader, Reader.map_map]
  refine holds_natural (by simp only [Word.count64]; omega) le_rfl fun names => ?_
  exact (congrArg (put · _) whole).trans (puts names)

theorem holds_real {x : Float} {put : Float → Settings → Settings} (back : ReadsBack x)
    (puts : ∀ names, put x (c.taking names) = c.taking (name :: names)) :
    ∃ v, Scans (Json.number (.real x)).text v ∧
      c.Holds { name, read := Reader.real.map put, required := false } v := by
  obtain ⟨n, scans, value⟩ := scans_realText back
  refine ⟨.number n, ?_, fun depth => ⟨put x, ?_, puts⟩⟩
  · rw [text]
    exact scans
  · exact Reader.map_of_ok put (Reader.real_of_value value)

end Fields

theorem members_hold (whole : ∀ d ∈ c.durations, d.wholeMillis = d)
    (back : ReadsBack c.retryFactor) :
    List.Forall₂ (fun (f : RecordField Settings) (m : String × Json) => f.name = m.1 ∧
      ∃ v, Scans m.2.text v ∧ c.Holds f v) record.fields c.members := by
  have count : c.workerCount.toNat < Word.count64 := c.workerCount.toNat_lt
  have limit : c.retryLimit.toNat < Word.count32 := c.retryLimit.toNat_lt
  simp only [durations, List.forall_mem_cons] at whole
  obtain ⟨poll, keepAlive, period, again, retry, longest, prune, keep, -⟩ := whole
  refine .cons ⟨rfl, holds_natural count le_rfl ?_⟩ <| .cons ⟨rfl, holds_millis poll ?_⟩ <|
    .cons ⟨rfl, holds_millis keepAlive ?_⟩ <| .cons ⟨rfl, holds_millis period ?_⟩ <|
    .cons ⟨rfl, holds_millis again ?_⟩ <| .cons ⟨rfl, holds_millis retry ?_⟩ <|
    .cons ⟨rfl, holds_real back ?_⟩ <| .cons ⟨rfl, holds_natural limit (by decide) ?_⟩ <|
    .cons ⟨rfl, holds_millis longest ?_⟩ <| .cons ⟨rfl, holds_millis prune ?_⟩ <|
    .cons ⟨rfl, holds_millis keep ?_⟩ .nil
  all_goals simp [taking]

theorem retryFactor_wholeMillis (c : Settings) : c.wholeMillis.retryFactor = c.retryFactor := by
  rw [wholeMillis]

theorem durations_wholeMillis (c : Settings) :
    c.wholeMillis.durations = c.durations.map Duration.wholeMillis := rfl

theorem whole_of_mem_wholeMillis : ∀ d ∈ c.wholeMillis.durations, d.wholeMillis = d := by
  rw [durations_wholeMillis, List.forall_mem_map]
  exact fun d _ => d.wholeMillis_wholeMillis

theorem members_wholeMillis (c : Settings) : c.wholeMillis.members = c.members := by
  rw [members, wholeMillis, members]
  simp only [millisJson_wholeMillis]

def isField (name : String) : Bool := (record.field? name).isSome

theorem field?_name : ∀ f ∈ record.fields, record.field? f.name = some f :=
  Record.find?_name (by decide)

def Part (c : Settings) (m : String × Source) : Prop :=
  (∃ f, record.field? m.1 = some f ∧ f.name = m.1 ∧ c.Holds f m.2) ∨
    (record.field? m.1 = none ∧ m.2.skip = .ok ())

theorem readMembers_taking (depth : Nat) {ms : List (String × Source)}
    (parts : ∀ m ∈ ms, c.Part m) (distinct : ((ms.map Prod.fst).filter isField).Nodup)
    {seen : List String} (fresh : ∀ name ∈ (ms.map Prod.fst).filter isField, name ∉ seen) :
    ∃ all, record.readMembers depth (ms.map fun m => (some m.1, m.2)) seen (c.taking seen) =
        .ok (all, c.taking all) ∧
      ∀ name, name ∈ all ↔ name ∈ seen ∨ name ∈ (ms.map Prod.fst).filter isField := by
  induction ms generalizing seen with
  | nil => exact ⟨seen, rfl, by simp⟩
  | cons m ms ih =>
    obtain ⟨part, others⟩ := List.forall_mem_cons.mp parts
    rw [List.map_cons] at distinct fresh
    obtain ⟨f, found, named, holds⟩ | ⟨unknown, skipped⟩ := part
    · have known : isField m.1 = true := by rw [isField, found]; rfl
      rw [List.filter_cons_of_pos known] at distinct fresh
      obtain ⟨once, distinct⟩ := List.nodup_cons.mp distinct
      obtain ⟨new, fresh⟩ := List.forall_mem_cons.mp fresh
      obtain ⟨set, reads, sets⟩ := holds depth
      have apart : ∀ name ∈ (ms.map Prod.fst).filter isField, name ∉ m.1 :: seen := by
        intro name member
        rw [List.mem_cons, not_or]
        exact ⟨fun same => once (same ▸ member), fresh name member⟩
      obtain ⟨all, rest, mem⟩ := ih others distinct apart
      refine ⟨all, ?_, fun name => (mem name).trans ?_⟩
      · rw [List.map_cons, Record.readMembers_field found new reads, sets, named]
        exact rest
      · rw [List.map_cons, List.filter_cons_of_pos known, List.mem_cons, List.mem_cons]
        tauto
    · have foreign : ¬isField m.1 = true := by rw [isField, unknown]; exact Bool.false_ne_true
      rw [List.filter_cons_of_neg foreign] at distinct fresh
      obtain ⟨all, rest, mem⟩ := ih others distinct fresh
      refine ⟨all, ?_, fun name => (mem name).trans ?_⟩
      · rw [List.map_cons, Record.readMembers_foreign unknown rfl skipped]
        exact rest
      · rw [List.map_cons, List.filter_cons_of_neg foreign]

def objectText (members : List (List Char)) : String :=
  .ofList ('\x7b' :: [','].intercalate members ++ ['\x7d'])

def arrayText (items : List (List Char)) : String :=
  .ofList ('[' :: [','].intercalate items ++ [']'])

theorem parse_objectText {texts : List (List Char)} {ms : List (String × Source)}
    (scans : List.Forall₂ ScansMember texts ms) (parts : ∀ m ∈ ms, c.Part m)
    (distinct : ((ms.map Prod.fst).filter isField).Nodup) :
    parse (objectText texts) = .ok (c.taking ((ms.map Prod.fst).filter isField)) := by
  have none (name : String) : name ∈ (ms.map Prod.fst).filter isField → name ∉ [] := fun _ =>
    List.not_mem_nil
  obtain ⟨all, reads, mem⟩ := readMembers_taking (depthLimit - 1) parts distinct none
  rw [taking_nil] at reads
  rw [parse, objectText, (Scans.object scans).run]
  refine Record.readAs_object (by decide) (a := c.taking all) reads ?_ ?_
  · simp [record]
  · exact congrArg some (taking_congr c fun name => (mem name).trans (by simp))

theorem readItems_taking (depth : Nat) {front : List (RecordField Settings)} {vs : List Source}
    (holds : List.Forall₂ c.Holds front vs) (more : List (RecordField Settings))
    (names : List String) :
    ∃ all, Record.readItems depth true .closed (front ++ more) vs (c.taking names) =
        .ok ([], c.taking all) ∧
      ∀ name, name ∈ all ↔ name ∈ names ∨ name ∈ front.map (·.name) := by
  induction holds generalizing names with
  | nil =>
    refine ⟨names, ?_, by simp⟩
    cases more <;> rfl
  | @cons f v front vs first _ ih =>
    obtain ⟨set, reads, sets⟩ := first depth
    obtain ⟨all, rest, mem⟩ := ih (f.name :: names)
    refine ⟨all, ?_, fun name => (mem name).trans ?_⟩
    · rw [List.cons_append, Record.readItems_field reads, sets]
      exact rest
    · rw [List.map_cons, List.mem_cons, List.mem_cons]
      tauto

/-- A member whose name is none of the fields', with any value that can be skipped. -/
def IsForeign (t : List Char) : Prop :=
  ∃ name value, t = name ++ ':' :: value ∧
    (∃ n, Reader.text.run (.ofList name) = .ok n ∧ isField n = false) ∧
    Reader.ignored.run (.ofList value) = .ok ()

theorem IsForeign.scans {t : List Char} (h : IsForeign t) :
    ∃ m : String × Source, ScansMember t m ∧ record.field? m.1 = none ∧ m.2.skip = .ok () := by
  obtain ⟨name, value, rfl, ⟨n, named, foreign⟩, skipped⟩ := h
  obtain ⟨v, scans, skips⟩ := scans_of_run skipped fun v skips => skips
  have names := names_of_run named
  rw [String.toList_ofList] at names scans
  exact ⟨(n, v), ⟨name, value, rfl, names, scans⟩, by simpa [isField] using foreign, skips⟩

theorem distinct_members (c : Settings) : (c.members.map Prod.fst).Nodup := by
  simp [members]

theorem print_eq (c : Settings) : c.print = objectText (c.members.map memberText) := by
  rw [print, toJson, Json.print, text, objectText, membersText_eq]

theorem wholeMillis_eq_self_iff : c.wholeMillis = c ↔
    ∀ d ∈ c.durations, d.nanos % 1000000 = 0 ∧ d.millis < Word.count64 := by
  simp only [durations, List.forall_mem_cons, ← Duration.wholeMillis_eq_self_iff]
  constructor
  · intro same
    have field {α : Type} (get : Settings → α) : get c.wholeMillis = get c := congrArg get same
    exact ⟨field pollInterval, field keepAliveInterval, field keepAlivePeriod,
      field keepAliveRetryInterval, field retryInterval, field maxRetryInterval,
      field pruneInterval, field keepFinished, List.forall_mem_nil _⟩
  · rintro ⟨poll, keepAlive, period, again, retry, longest, prune, keep, -⟩
    rw [wholeMillis, poll, keepAlive, period, again, retry, longest, prune, keep]

section Whole
variable (whole : ∀ d ∈ c.durations, d.wholeMillis = d) (back : ReadsBack c.retryFactor)
include whole back

theorem part_of_member : ∀ m ∈ c.members, ∃ v, Scans m.2.text v ∧ c.Part (m.1, v) ∧
    isField m.1 = true := by
  have field {fs : List (RecordField Settings)} {ms : List (String × Json)}
      (aligned : List.Forall₂ (fun f m => f.name = m.1 ∧
        ∃ v, Scans m.2.text v ∧ c.Holds f v) fs ms) :
      ∀ m ∈ ms, ∃ f ∈ fs, f.name = m.1 ∧ ∃ v, Scans m.2.text v ∧ c.Holds f v := by
    induction aligned with
    | nil => exact List.forall_mem_nil _
    | cons first _ ih =>
      refine List.forall_mem_cons.mpr ⟨⟨_, List.mem_cons_self, first⟩, fun m member => ?_⟩
      obtain ⟨f, known, same⟩ := ih m member
      exact ⟨f, List.mem_cons_of_mem _ known, same⟩
  intro m member
  obtain ⟨f, known, named, v, scans, holds⟩ := field (members_hold whole back) m member
  have found : record.field? m.1 = some f := named ▸ field?_name f known
  exact ⟨v, scans, .inl ⟨f, found, named, holds⟩, by rw [isField, found]; rfl⟩

theorem parse_members {kept : List (String × Json)} {texts foreign : List (List Char)}
    (some_ : kept.Sublist c.members) (others : ∀ t ∈ foreign, IsForeign t)
    (mixed : texts.Perm (kept.map memberText ++ foreign)) :
    parse (objectText texts) = .ok (c.taking (kept.map Prod.fst)) := by
  choose! source scans part known using part_of_member whole back
  choose! stranger strange unknown skips using fun t member => (others t member).scans
  have own : ∀ m ∈ kept, m ∈ c.members := fun m member => some_.subset member
  let trees := kept.map (fun m => (m.1, source m)) ++ foreign.map stranger
  have aligned : List.Forall₂ ScansMember (kept.map memberText ++ foreign) trees := by
    refine List.rel_append ?_ ?_
    · rw [List.forall₂_map_left_iff, List.forall₂_map_right_iff, List.forall₂_same]
      exact fun m member => ⟨_, _, rfl, names_quote _, scans m (own m member)⟩
    · rw [List.forall₂_map_right_iff, List.forall₂_same]
      exact strange
  have parts : ∀ m ∈ trees, c.Part m := by
    refine List.forall_mem_append.mpr ⟨?_, ?_⟩ <;> rw [List.forall_mem_map]
    · exact fun m member => part m (own m member)
    · exact fun t member => .inr ⟨unknown t member, skips t member⟩
  have named : (trees.map Prod.fst).filter isField = kept.map Prod.fst := by
    have ours : (kept.map Prod.fst).filter isField = kept.map Prod.fst := by
      rw [List.filter_eq_self, List.forall_mem_map]
      exact fun m member => known m (own m member)
    have none : (foreign.map fun t => (stranger t).1).filter isField = [] := by
      rw [List.filter_eq_nil_iff, List.forall_mem_map]
      exact fun t member => by simp [isField, unknown t member]
    simpa [trees, List.filter_append, Function.comp_def, none] using ours
  obtain ⟨ms, scanned, same⟩ := List.perm_comp_forall₂ mixed aligned
  have names := (same.map Prod.fst).filter isField
  rw [named] at names
  rw [parse_objectText scanned (fun m member => parts m (same.subset member))
    (names.nodup_iff.mpr (c.distinct_members.sublist (some_.map _)))]
  exact congrArg _ (taking_congr c fun name => names.mem_iff)

theorem parse_items (k : Nat) :
    parse (arrayText ((c.members.take k).map fun m => m.2.text)) =
      .ok (c.taking ((c.members.take k).map Prod.fst)) := by
  have aligned := List.forall₂_take k (members_hold whole back)
  have names {fs : List (RecordField Settings)} {ms : List (String × Json)}
      (aligned : List.Forall₂ (fun f m => f.name = m.1 ∧
        ∃ v, Scans m.2.text v ∧ c.Holds f v) fs ms) : ∃ vs,
        List.Forall₂ Scans (ms.map fun m => m.2.text) vs ∧ List.Forall₂ c.Holds fs vs ∧
          fs.map (·.name) = ms.map Prod.fst := by
    induction aligned with
    | nil => exact ⟨[], .nil, .nil, rfl⟩
    | cons first _ ih =>
      obtain ⟨named, v, scans, holds⟩ := first
      obtain ⟨vs, others, more, same⟩ := ih
      exact ⟨v :: vs, .cons scans others, .cons holds more, congrArg₂ _ named same⟩
  obtain ⟨vs, scans, holds, same⟩ := names aligned
  obtain ⟨all, reads, mem⟩ := readItems_taking (depthLimit - 1) holds
    (record.fields.drop k) []
  rw [taking_nil, List.take_append_drop] at reads
  rw [parse, arrayText, (Scans.array scans).run]
  refine Record.readAs_array (by decide) (a := c.taking all) reads ?_
  exact congrArg some (taking_congr c fun name => (mem name).trans (by simp [same]))

end Whole

/-- Settings come back from their text with their durations in whole milliseconds, so unchanged
exactly if these are whole milliseconds below `2 ^ 64`, and their text is the same again. The
members of an object may stand in any order and among members with other names, an array has the
fields in the order of their declaration, and what is left out in either is at its default. -/
theorem text_round_trip (c : Settings) (back : ReadsBack c.retryFactor) :
    parse c.print = .ok c.wholeMillis ∧
    (parse c.print = .ok c ↔
      ∀ d ∈ c.durations, d.nanos % 1000000 = 0 ∧ d.millis < Word.count64) ∧
    (∀ d, parse c.print = .ok d → d.print = c.print) ∧
    (∀ texts foreign, (∀ t ∈ foreign, IsForeign t) →
      texts.Perm (c.members.map memberText ++ foreign) →
      parse (objectText texts) = .ok c.wholeMillis) ∧
    parse (arrayText (c.members.map fun m => m.2.text)) = .ok c.wholeMillis ∧
    (∀ (kept : List (String × Json)) texts foreign, kept.Sublist c.members →
      (∀ t ∈ foreign, IsForeign t) → texts.Perm (kept.map memberText ++ foreign) →
      parse (objectText texts) = .ok (c.wholeMillis.taking (kept.map Prod.fst))) ∧
    ∀ k, parse (arrayText ((c.members.take k).map fun m => m.2.text)) =
      .ok (c.wholeMillis.taking ((c.members.take k).map Prod.fst)) := by
  have whole := c.whole_of_mem_wholeMillis
  rw [← retryFactor_wholeMillis] at back
  have mixed (kept : List (String × Json)) (texts foreign : List (List Char))
      (some_ : kept.Sublist c.members) (others : ∀ t ∈ foreign, IsForeign t)
      (same : texts.Perm (kept.map memberText ++ foreign)) :
      parse (objectText texts) = .ok (c.wholeMillis.taking (kept.map Prod.fst)) := by
    rw [← members_wholeMillis] at some_
    exact parse_members whole back some_ others same
  have items (k : Nat) : parse (arrayText ((c.members.take k).map fun m => m.2.text)) =
      .ok (c.wholeMillis.taking ((c.members.take k).map Prod.fst)) := by
    rw [← members_wholeMillis]
    exact parse_items whole back k
  have all : c.wholeMillis.taking (c.members.map Prod.fst) = c.wholeMillis := by
    rw [← members_wholeMillis]
    exact taking_all _
  have object (texts foreign : List (List Char)) (others : ∀ t ∈ foreign, IsForeign t)
      (same : texts.Perm (c.members.map memberText ++ foreign)) :
      parse (objectText texts) = .ok c.wholeMillis := by
    rw [mixed _ texts foreign (.refl _) others same, all]
  have again : parse c.print = .ok c.wholeMillis := by
    rw [print_eq]
    exact object _ [] (List.forall_mem_nil _) (by rw [List.append_nil])
  refine ⟨again, ?_, ?_, object, ?_, mixed, items⟩
  · rw [again, Except.ok.injEq, wholeMillis_eq_self_iff]
  · intro d same
    rw [again] at same
    cases same
    rw [print_eq, print_eq, members_wholeMillis]
  · have full := items c.members.length
    rw [List.take_length, all] at full
    exact full

def unevenSettings : Settings where
  pollInterval := .ofNanos 1500000
  keepFinished := .longest

def stray : List Char := ['"', 'n', 'o', 't', 'e', '"', ' ', ':', '[', ']']

theorem unevenSettings_text :
    ReadsBack unevenSettings.retryFactor ∧
    parse unevenSettings.print = .ok unevenSettings.wholeMillis ∧
    unevenSettings.wholeMillis.pollInterval = .ofMillis 1 ∧
    unevenSettings.wholeMillis.keepFinished = .ofMillis (Word.count64 - 1) ∧
    parse (objectText [memberText ("keep_finished", millisJson .longest), stray,
      memberText ("worker_count", .ofNat 4)]) =
        .ok (unevenSettings.wholeMillis.taking ["worker_count", "keep_finished"]) := by
  have back : ReadsBack unevenSettings.retryFactor := by decide +kernel
  obtain ⟨again, -, -, -, -, mixed, -⟩ := text_round_trip unevenSettings back
  have foreign : IsForeign stray :=
    ⟨['"', 'n', 'o', 't', 'e', '"', ' '], ['[', ']'], rfl, ⟨"note", by rfl, by decide⟩, by rfl⟩
  refine ⟨back, again, by decide, by decide, ?_⟩
  refine mixed [("worker_count", .ofNat 4), ("keep_finished", millisJson .longest)] _ [stray] ?_
    (List.forall_mem_singleton.mpr foreign) ?_
  · exact .cons_cons _ (List.singleton_sublist.mpr (List.mem_of_getElem? (i := 9) rfl))
  · exact @List.perm_append_comm _ [_, stray] [_]

end Settings
end DelayedJobs
